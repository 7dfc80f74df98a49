import Shapeline.Lowering
import Shapeline.Proofs.Parameters

/-!
# Lowering programs

The definition that a program is lowered to has no terms but those that are built from the names and
the literals of the program: names become symbols, and the divisors of terms are checked as the terms
are built. A program is authored if its names carry no mark of placeholders and its literals are ones
that an author can write. All values and shapes of its definition can then be written by an author.
-/

namespace Shapeline

/-- The value of a line, if it has one. -/
def VariableDecl.exprs (decl : VariableDecl) : List Expr := decl.value.toList

/-- The overrides and the declared extents of a node line. -/
def NodeLine.exprs (line : NodeLine) : List Expr :=
  line.calls.flatMap (fun call => call.overrides.flatMap VariableDecl.exprs) ++ line.shape.getD []

/-- The expressions of a model: those of its variables, of its override blocks, of its node lines and
of the node lines of inline models. -/
def ModelBlock.exprs (model : ModelBlock) : List Expr :=
  model.declarations.flatMap VariableDecl.exprs ++
  model.typeBlocks.flatMap (fun block => block.overrides.flatMap VariableDecl.exprs) ++
  model.lines.flatMap (fun line => line.toNodeLine.exprs) ++
  model.lines.flatMap (fun line => line.model.toList.flatMap fun block =>
    block.lines.flatMap fun inner => inner.toNodeLine.exprs)

/-- The expressions of the model of a program. -/
def Program.exprs (program : Program) : List Expr := program.model.toList.flatMap ModelBlock.exprs

variable {T : Term → Prop}

/-- The names of an expression, as symbols, and its literals have a property. -/
def Expr.LeavesSatisfy (T : Term → Prop) : Expr → Prop
  | literal value => value.TermsSatisfy T
  | identifier name => T (.sym name)
  | binary _ left right => left.LeavesSatisfy T ∧ right.LeavesSatisfy T
  | unary _ operand => operand.LeavesSatisfy T
  | importLine _ => True
  | located _ expr => expr.LeavesSatisfy T

/-- Whether a value is no dimension term, although it may be an integer. -/
def Value.isPlain : Value → Bool
  | .dim _ => false
  | _ => true

/-- Whether all literals of an expression are plain values. -/
def Expr.isPlain : Expr → Bool
  | literal value => value.isPlain
  | identifier _ => true
  | binary _ left right => left.isPlain && right.isPlain
  | unary _ operand => operand.isPlain
  | importLine _ => true
  | located _ expr => expr.isPlain

/-- An integer has a property that integers have. -/
theorem Value.TermsSatisfy.int (hT : Term.Arithmetic T) (n : Int) : (Value.int n).TermsSatisfy T :=
  fun _ hu => Option.some.inj hu ▸ hT.const n

/-- Plain values have a property that integers have. -/
theorem Value.TermsSatisfy.of_isPlain {v : Value} (hT : Term.Arithmetic T) (h : v.isPlain = true) :
    v.TermsSatisfy T := by
  intro t ht
  cases v with
  | int n => exact Value.TermsSatisfy.int hT n t ht
  | dim t => cases h
  | _ => cases ht

/-- An expression with plain literals has no placeholders. -/
theorem Expr.leavesSatisfy_of_isPlain {expr : Expr} (h : expr.isPlain = true) :
    expr.LeavesSatisfy Term.Solid := by
  induction expr with
  | literal value => exact .of_isPlain Term.arithmetic_solid h
  | identifier name => exact ⟨trivial, ⟨_, rfl⟩⟩
  | binary _ _ _ ihl ihr =>
    obtain ⟨hl, hr⟩ := Bool.and_eq_true_iff.mp h
    exact ⟨ihl hl, ihr hr⟩
  | unary _ _ ih => exact ih h
  | importLine _ => trivial
  | located _ _ ih => exact ih h

/-- A value that is no dimension, or a dimension that an author can write. -/
def Value.Written (v : Value) : Prop := ∀ t, v.toTerm? = some t → t.Written

instance : DecidablePred Value.Written := fun v =>
  inferInstanceAs (Decidable (∀ t ∈ v.toTerm?, t.Written))

/-- An expression with names and literals of an author. -/
def Expr.Authored : Expr → Prop
  | literal value => value.Written
  | identifier name => ¬ Marked name
  | binary _ left right => left.Authored ∧ right.Authored
  | unary _ operand => operand.Authored
  | importLine _ => True
  | located _ expr => expr.Authored

/-- Whether an expression is authored is decided at its leaves. -/
instance Expr.decidableAuthored : DecidablePred Expr.Authored
  | literal value => inferInstanceAs (Decidable value.Written)
  | identifier name => inferInstanceAs (Decidable (¬ Marked name))
  | binary _ left right =>
    have := decidableAuthored left
    have := decidableAuthored right
    inferInstanceAs (Decidable (left.Authored ∧ right.Authored))
  | unary _ operand => decidableAuthored operand
  | importLine _ => inferInstanceAs (Decidable True)
  | located _ expr => decidableAuthored expr

/-- A line whose value, if there is one, is authored. -/
def VariableDecl.Authored (decl : VariableDecl) : Prop :=
  ∀ expr, decl.value = some expr → expr.Authored

instance : DecidablePred VariableDecl.Authored := fun decl =>
  inferInstanceAs (Decidable (∀ expr ∈ decl.value, expr.Authored))

/-- A node line whose overrides and declared extents are authored. -/
structure NodeLine.Authored (line : NodeLine) : Prop where
  /-- The overrides are authored. -/
  calls : ∀ call ∈ line.calls, ∀ decl ∈ call.overrides, decl.Authored
  /-- The declared extents are authored. -/
  shape : ∀ exprs, line.shape = some exprs → ∀ expr ∈ exprs, expr.Authored

instance : DecidablePred NodeLine.Authored := fun line =>
  decidable_of_iff ((∀ call ∈ line.calls, ∀ decl ∈ call.overrides, decl.Authored) ∧
      ∀ exprs ∈ line.shape, ∀ expr ∈ exprs, expr.Authored)
    ⟨fun h => ⟨h.1, h.2⟩, fun h => ⟨h.1, h.2⟩⟩

/-- A model whose variables, override blocks and node lines are authored. -/
structure ModelBlock.Authored (model : ModelBlock) : Prop where
  /-- The names and the values of the variables are authored. -/
  declarations : ∀ decl ∈ model.declarations, ¬ Marked decl.key ∧ decl.Authored
  /-- The override blocks are authored. -/
  typeBlocks : ∀ block ∈ model.typeBlocks, ∀ decl ∈ block.overrides, decl.Authored
  /-- The node lines are authored. -/
  lines : ∀ line ∈ model.lines, line.toNodeLine.Authored
  /-- The node lines of inline models are authored. -/
  inner : ∀ line ∈ model.lines, ∀ block, line.model = some block →
    ∀ inner ∈ block.lines, inner.toNodeLine.Authored

instance : DecidablePred ModelBlock.Authored := fun model =>
  decidable_of_iff ((∀ decl ∈ model.declarations, ¬ Marked decl.key ∧ decl.Authored) ∧
      (∀ block ∈ model.typeBlocks, ∀ decl ∈ block.overrides, decl.Authored) ∧
      (∀ line ∈ model.lines, line.toNodeLine.Authored) ∧
      ∀ line ∈ model.lines, ∀ block ∈ line.model, ∀ inner ∈ block.lines, inner.toNodeLine.Authored)
    ⟨fun h => ⟨h.1, h.2.1, h.2.2.1, h.2.2.2⟩, fun h => ⟨h.1, h.2, h.3, h.4⟩⟩

/-- A program whose model is authored. -/
def Program.Authored (program : Program) : Prop :=
  ∀ model, program.model = some model → model.Authored

instance : DecidablePred Program.Authored := fun program =>
  inferInstanceAs (Decidable (∀ model ∈ program.model, model.Authored))

/-- The names and the literals of an authored expression can be written. -/
theorem Expr.Authored.leavesSatisfy {expr : Expr} (h : expr.Authored) :
    expr.LeavesSatisfy Term.Written := by
  induction expr with
  | literal value => exact h
  | identifier name => exact .sym h
  | binary _ _ _ ihl ihr => exact ⟨ihl h.1, ihr h.2⟩
  | unary _ _ ih => exact ih h
  | importLine _ => trivial
  | located _ _ ih => exact ih h

/-- The expressions of an authored node line are authored. -/
theorem NodeLine.Authored.exprs {line : NodeLine} (h : line.Authored) {expr : Expr}
    (hexpr : expr ∈ line.exprs) : expr.Authored := by
  rcases List.mem_append.mp hexpr with hexpr | hexpr
  · obtain ⟨call, hcall, hexpr⟩ := List.mem_flatMap.mp hexpr
    obtain ⟨decl, hdecl, hexpr⟩ := List.mem_flatMap.mp hexpr
    exact h.calls call hcall decl hdecl expr (Option.mem_toList.mp hexpr)
  · cases hshape : line.shape with
    | none => simp [hshape] at hexpr
    | some exprs => exact h.shape exprs hshape expr (by simpa [hshape] using hexpr)

/-- The expressions of an authored program are authored. -/
theorem Program.Authored.exprs {program : Program} (h : program.Authored) {expr : Expr}
    (hexpr : expr ∈ program.exprs) : expr.Authored := by
  obtain ⟨model, hmodel, hexpr⟩ := List.mem_flatMap.mp hexpr
  have hmodel := h model (Option.mem_toList.mp hmodel)
  rcases List.mem_append.mp hexpr with hexpr | hexpr
  · rcases List.mem_append.mp hexpr with hexpr | hexpr
    · rcases List.mem_append.mp hexpr with hexpr | hexpr
      · obtain ⟨decl, hdecl, hexpr⟩ := List.mem_flatMap.mp hexpr
        exact (hmodel.declarations decl hdecl).2 expr (Option.mem_toList.mp hexpr)
      · obtain ⟨block, hblock, hexpr⟩ := List.mem_flatMap.mp hexpr
        obtain ⟨decl, hdecl, hexpr⟩ := List.mem_flatMap.mp hexpr
        exact hmodel.typeBlocks block hblock decl hdecl expr (Option.mem_toList.mp hexpr)
    · obtain ⟨line, hline, hexpr⟩ := List.mem_flatMap.mp hexpr
      exact (hmodel.lines line hline).exprs hexpr
  · obtain ⟨line, hline, hexpr⟩ := List.mem_flatMap.mp hexpr
    obtain ⟨block, hblock, hexpr⟩ := List.mem_flatMap.mp hexpr
    obtain ⟨inner, hinner, hexpr⟩ := List.mem_flatMap.mp hexpr
    exact (hmodel.inner line hline block (Option.mem_toList.mp hblock) inner hinner).exprs hexpr

/-- The values of the overrides of a node have one property, the extents of its declared shape
another. -/
structure LineSpec.All (V : Value → Prop) (T : Term → Prop) (line : LineSpec) : Prop where
  /-- The overrides have the property. -/
  calls : ∀ call ∈ line.calls, ∀ a ∈ call.overrides, V a.value
  /-- The declared shape has the property. -/
  declared : ∀ shape, line.declared = some shape → shape.TermsSatisfy T

/-- The values of a definition have one property, the extents of its declared shapes another. -/
structure Definition.All (V : Value → Prop) (T : Term → Prop) (d : Definition) : Prop where
  /-- The values of the variables have the property. -/
  hyperparameters : ∀ h ∈ d.hyperparameters, V h.value
  /-- The override blocks have the property. -/
  typeOverrides : ∀ block ∈ d.typeOverrides, ∀ a ∈ block.assignments, V a.value
  /-- The nodes have the property. -/
  nodes : ∀ n ∈ d.nodes, n.toLineSpec.All V T ∧ ∀ line ∈ n.inner, line.All V T

/-- The terms of a definition have a property. -/
abbrev Definition.TermsSatisfy (T : Term → Prop) (d : Definition) : Prop :=
  d.All (·.TermsSatisfy T) T

/-- A definition whose values and shapes can be written by an author. -/
structure Definition.Written (d : Definition) : Prop where
  /-- The variables have an author's names. -/
  names : ∀ h ∈ d.hyperparameters, ¬ Marked h.symbol
  /-- The values and shapes can be written. -/
  terms : d.TermsSatisfy Term.Written

variable {node : Option Int} {index : Int} {v : Value} {t : Term} {expr : Expr}
  {α β : Type} {items : List α} {results : List β} {errors : List Diagnostic}

/-- The first item has a result or raises a single diagnostic, which is collected before those of the
others. -/
theorem collectEach_cons_eq_ok_iff {f : α → Outcome β} {item : α} {rest : List α} :
    collectEach f (item :: rest) = .ok (results, errors) ↔
      (∃ result others, f item = .ok result ∧ collectEach f rest = .ok (others, errors) ∧
        results = result :: others) ∨
      ∃ d more, f item = .error (.problem d) ∧ collectEach f rest = .ok (results, more) ∧
        errors = d :: more := by
  rw [collectEach]
  split
  · rename_i result hresult
    simp only [bind_eq_ok_iff, pure_eq_ok_iff, Prod.exists, Prod.mk.injEq]
    simp [hresult]
  · rename_i d hd
    simp only [bind_eq_ok_iff, pure_eq_ok_iff, Prod.exists, Prod.mk.injEq]
    simp [hd]
  · rename_i failure hnone hfailure
    refine ⟨fun h => (by cases h), ?_⟩
    rintro (⟨_, _, h, -⟩ | ⟨d, _, h, -⟩)
    · cases hfailure.symm.trans h
    · exact (hnone d (Except.error.inj (hfailure.symm.trans h))).elim

/-- What the first item has is joined with what the others have. -/
theorem collectAll_cons_eq_ok_iff {f : α → Outcome (β × List Diagnostic)} {item : α}
    {rest : List α} :
    collectAll f (item :: rest) = .ok (results, errors) ↔
      ∃ first found others more, f item = .ok (first, found) ∧
        collectAll f rest = .ok (others, more) ∧
        results = first :: others ∧ errors = found ++ more := by
  simp only [collectAll, bind_eq_ok_iff, pure_eq_ok_iff, Prod.exists, Prod.mk.injEq,
    exists_and_left]

/-- Every collected result is that of an item. -/
theorem exists_of_collectEach {f : α → Outcome β} (h : collectEach f items = .ok (results, errors))
    {result : β} (hresult : result ∈ results) : ∃ item ∈ items, f item = .ok result := by
  induction items generalizing results errors with
  | nil =>
    obtain ⟨rfl, _⟩ := Prod.mk.inj (pure_eq_ok_iff.mp h)
    cases hresult
  | cons item rest ih =>
    rcases collectEach_cons_eq_ok_iff.mp h with
      ⟨found, others, hfound, hrest, rfl⟩ | ⟨d, more, -, hrest, -⟩
    · rcases List.mem_cons.mp hresult with rfl | hresult
      · exact ⟨item, List.mem_cons_self, hfound⟩
      · obtain ⟨other, hother, hf⟩ := ih hrest hresult
        exact ⟨other, List.mem_cons_of_mem _ hother, hf⟩
    · obtain ⟨other, hother, hf⟩ := ih hrest hresult
      exact ⟨other, List.mem_cons_of_mem _ hother, hf⟩

/-- Every joined result is that of an item. -/
theorem exists_of_collectAll {f : α → Outcome (β × List Diagnostic)}
    (h : collectAll f items = .ok (results, errors)) {result : β} (hresult : result ∈ results) :
    ∃ item ∈ items, ∃ found, f item = .ok (result, found) := by
  induction items generalizing results errors with
  | nil =>
    obtain ⟨rfl, _⟩ := Prod.mk.inj (pure_eq_ok_iff.mp h)
    cases hresult
  | cons item rest ih =>
    obtain ⟨first, found, others, more, hfound, hrest, rfl, -⟩ := collectAll_cons_eq_ok_iff.mp h
    rcases List.mem_cons.mp hresult with rfl | hresult
    · exact ⟨item, List.mem_cons_self, found, hfound⟩
    · obtain ⟨other, hother, hf⟩ := ih hrest hresult
      exact ⟨other, List.mem_cons_of_mem _ hother, hf⟩

/-- The diagnostic that an operation raises, if it raises a single one. -/
def raised? : Outcome α → Option Diagnostic
  | .error (.problem d) => some d
  | _ => none

/-- An operation raises what its failing part raises. -/
theorem raised?_bind_pure {x : Outcome α} {g : α → β} :
    raised? (x >>= fun a => pure (g a)) = raised? x := by
  rcases x with failure | a
  · cases failure <;> rfl
  · rfl

/-- What is added to the diagnostic of an operation is added to the one that it raises. -/
theorem raised?_mapProblem {x : Outcome α} {f : Diagnostic → Diagnostic} :
    raised? (x.mapError (Failure.mapProblem f)) = (raised? x).map f := by
  unfold raised? Except.mapError Failure.mapProblem
  rcases x with failure | a
  · cases failure <;> rfl
  · rfl

/-- The collected diagnostics are those that the items raise. -/
theorem errors_of_collectEach {f : α → Outcome β}
    (h : collectEach f items = .ok (results, errors)) :
    errors = items.filterMap fun item => raised? (f item) := by
  induction items generalizing results errors with
  | nil => exact (Prod.mk.inj (pure_eq_ok_iff.mp h)).2
  | cons item rest ih =>
    rw [List.filterMap_cons]
    rcases collectEach_cons_eq_ok_iff.mp h with
      ⟨found, others, hfound, hrest, -⟩ | ⟨d, more, hd, hrest, rfl⟩
    · rw [hfound]
      exact ih hrest
    · rw [hd]
      exact congrArg (d :: ·) (ih hrest)

/-- The joined diagnostics are those of the items, one item after the other. -/
theorem errors_of_collectAll {f : α → Outcome (β × List Diagnostic)} {g : α → List Diagnostic}
    (hg : ∀ item ∈ items, ∀ result found, f item = .ok (result, found) → found = g item)
    (h : collectAll f items = .ok (results, errors)) : errors = items.flatMap g := by
  induction items generalizing results errors with
  | nil => exact (Prod.mk.inj (pure_eq_ok_iff.mp h)).2
  | cons item rest ih =>
    obtain ⟨hitem, hrest⟩ := List.forall_mem_cons.mp hg
    obtain ⟨first, found, others, more, hfound, hothers, -, rfl⟩ := collectAll_cons_eq_ok_iff.mp h
    rw [List.flatMap_cons, hitem first found hfound, ih hrest hothers]

/-- Results are collected without diagnostics exactly if every item has one. -/
theorem collectEach_eq_nil_iff {f : α → Outcome β} :
    collectEach f items = .ok (results, []) ↔
      List.Forall₂ (fun item result => f item = .ok result) items results := by
  induction items generalizing results with
  | nil =>
    rw [List.forall₂_nil_left_iff]
    exact ⟨fun h => (Prod.mk.inj (pure_eq_ok_iff.mp h)).1, fun h => h ▸ rfl⟩
  | cons item rest ih =>
    rw [List.forall₂_cons_left_iff, collectEach_cons_eq_ok_iff]
    constructor
    · rintro (⟨found, others, hfound, hrest, rfl⟩ | ⟨_, _, -, -, hnil⟩)
      · exact ⟨found, others, hfound, ih.mp hrest, rfl⟩
      · cases hnil
    · rintro ⟨found, others, hfound, hothers, rfl⟩
      exact Or.inl ⟨found, others, hfound, ih.mpr hothers, rfl⟩

/-- Results are joined without diagnostics exactly if every item has one without diagnostics. -/
theorem collectAll_eq_nil_iff {f : α → Outcome (β × List Diagnostic)} :
    collectAll f items = .ok (results, []) ↔
      List.Forall₂ (fun item result => f item = .ok (result, [])) items results := by
  induction items generalizing results with
  | nil =>
    rw [List.forall₂_nil_left_iff]
    exact ⟨fun h => (Prod.mk.inj (pure_eq_ok_iff.mp h)).1, fun h => h ▸ rfl⟩
  | cons item rest ih =>
    rw [List.forall₂_cons_left_iff, collectAll_cons_eq_ok_iff]
    constructor
    · rintro ⟨first, found, others, more, hfound, hrest, rfl, hnil⟩
      obtain ⟨rfl, rfl⟩ := List.append_eq_nil_iff.mp hnil.symm
      exact ⟨first, others, hfound, ih.mp hrest, rfl⟩
    · rintro ⟨first, others, hfirst, hothers, rfl⟩
      exact ⟨first, [], others, [], hfirst, ih.mpr hothers, rfl, rfl⟩

/-- The dimension that a value is required to be. -/
theorem requireDimension_eq_ok_iff {description : String} :
    requireDimension v description node = .ok t ↔ v.toTerm? = some t := by
  unfold requireDimension
  split
  · rename_i u hu
    rw [hu, pure_eq_ok_iff, Option.some.injEq, eq_comm]
  · rename_i hnone
    simp [hnone, throw, throwThe, MonadExceptOf.throw]

/-- A dimension with a property is a value with the property. -/
theorem Value.TermsSatisfy.dim (h : T t) : (Value.dim t).TermsSatisfy T :=
  fun _ hu => Option.some.inj hu ▸ h

/-- The opposite of a value has a property that is kept. -/
theorem termsSatisfy_negateValue {w : Value} {description : String} (hT : Term.Arithmetic T)
    (hv : v.TermsSatisfy T) (h : negateValue v description node = .ok w) : w.TermsSatisfy T := by
  unfold negateValue at h
  split at h
  · exact pure_eq_ok_iff.mp h ▸ Value.TermsSatisfy.int hT _
  · exact pure_eq_ok_iff.mp h ▸ fun _ hu => by cases hu
  · obtain ⟨t, ht, h⟩ := bind_eq_ok_iff.mp h
    exact pure_eq_ok_iff.mp h ▸ .dim (hT.negate (hv t (requireDimension_eq_ok_iff.mp ht)))

/-- An expression is lowered to a value that is built from its names and literals. -/
theorem termsSatisfy_lowerExpr (hT : Term.Arithmetic T) (hexpr : expr.LeavesSatisfy T)
    (h : lowerExpr node expr = .ok v) : v.TermsSatisfy T := by
  induction expr generalizing v with
  | literal value => exact pure_eq_ok_iff.mp h ▸ hexpr
  | identifier name => exact pure_eq_ok_iff.mp h ▸ .dim hexpr
  | located _ expr ih => exact ih hexpr h
  | importLine name => cases h
  | unary operator operand ih =>
    obtain ⟨value, hvalue, h⟩ := bind_eq_ok_iff.mp h
    have hterms := ih hexpr hvalue
    split at h
    · exact pure_eq_ok_iff.mp h ▸ hterms
    · split at h
      · exact termsSatisfy_negateValue hT hterms h
      · cases h
  | binary operator left right ihl ihr =>
    obtain ⟨lv, hlv, h⟩ := bind_eq_ok_iff.mp h
    obtain ⟨l, hl, h⟩ := bind_eq_ok_iff.mp h
    obtain ⟨rv, hrv, h⟩ := bind_eq_ok_iff.mp h
    obtain ⟨r, hr, h⟩ := bind_eq_ok_iff.mp h
    have hl := ihl hexpr.1 hlv l (requireDimension_eq_ok_iff.mp hl)
    have hr := ihr hexpr.2 hrv r (requireDimension_eq_ok_iff.mp hr)
    split at h
    · obtain ⟨t, ht, h⟩ := bind_eq_ok_iff.mp h
      exact pure_eq_ok_iff.mp h ▸ .dim (hT.apply _ _ _ _ hl hr (mapError_eq_ok_iff.mp ht))
    · cases h

/-- The value of a line is built from names and literals. -/
theorem termsSatisfy_lowerValue {decl : VariableDecl} (hT : Term.Arithmetic T)
    (hdecl : ∀ expr ∈ decl.exprs, expr.LeavesSatisfy T) (h : lowerValue node decl = .ok v) :
    v.TermsSatisfy T := by
  unfold lowerValue at h
  split at h
  · exact pure_eq_ok_iff.mp h ▸ fun _ hu => by cases hu
  · rename_i expr hexpr
    obtain ⟨value, hvalue, h⟩ := bind_eq_ok_iff.mp h
    obtain rfl := pure_eq_ok_iff.mp h
    have hterms := termsSatisfy_lowerExpr hT (hdecl expr (Option.mem_toList.mpr hexpr)) hvalue
    unfold Value.unwrapInteger
    split
    · exact .int hT _
    · exact hterms

/-- An extent is built from names and literals. -/
theorem termsSatisfy_lowerAxis (hT : Term.Arithmetic T) (hexpr : expr.LeavesSatisfy T)
    (h : lowerAxis index expr = .ok t) : T t := by
  obtain ⟨value, hvalue, h⟩ := bind_eq_ok_iff.mp h
  exact termsSatisfy_lowerExpr hT hexpr hvalue t (requireDimension_eq_ok_iff.mp h)

section Lines

variable {V : Value → Prop} {E : Expr → Prop}
  (hV : ∀ node (decl : VariableDecl) v, (∀ expr ∈ decl.exprs, E expr) →
    lowerValue node decl = .ok v → V v)
  (hT : ∀ index expr t, E expr → lowerAxis index expr = .ok t → T t)

include hV

/-- The assignments of lines have what the values of their expressions have. -/
theorem all_lowerAssignments {decls : List VariableDecl} {assignments : List Assignment}
    (hdecls : ∀ expr ∈ decls.flatMap VariableDecl.exprs, E expr)
    (h : lowerAssignments node decls = .ok (assignments, errors)) :
    ∀ a ∈ assignments, V a.value := by
  intro a ha
  obtain ⟨decl, hdecl, h⟩ := exists_of_collectEach h ha
  obtain ⟨value, hvalue, h⟩ := bind_eq_ok_iff.mp h
  obtain rfl := pure_eq_ok_iff.mp h
  exact hV node decl value
    (fun expr hexpr => hdecls expr (List.mem_flatMap.mpr ⟨decl, hdecl, hexpr⟩))
    (mapError_eq_ok_iff.mp hvalue)

/-- The overrides of a use of a layer have what the values of their expressions have. -/
theorem all_lowerCall {call : LayerCall} {spec : CallSpec}
    (hcall : ∀ expr ∈ call.overrides.flatMap VariableDecl.exprs, E expr)
    (h : lowerCall index call = .ok (spec, errors)) : ∀ a ∈ spec.overrides, V a.value := by
  obtain ⟨⟨overrides, found⟩, hoverrides, h⟩ := bind_eq_ok_iff.mp h
  have hvalues := all_lowerAssignments hV hcall hoverrides
  dsimp only at h
  split at h
  · obtain ⟨rfl, _⟩ := Prod.mk.inj (pure_eq_ok_iff.mp h)
    exact hvalues
  · obtain ⟨rfl, _⟩ := Prod.mk.inj (pure_eq_ok_iff.mp h)
    exact hvalues

omit hV in
include hT in
/-- The declared shape of a line has what the extents of its expressions have. -/
theorem all_lowerShape {line : NodeLine} {declared : Option Shape}
    (hline : ∀ expr ∈ line.exprs, E expr) (h : lowerShape index line = .ok (declared, errors)) :
    ∀ shape, declared = some shape → shape.TermsSatisfy T := by
  unfold lowerShape at h
  split at h
  · obtain ⟨rfl, _⟩ := Prod.mk.inj (pure_eq_ok_iff.mp h)
    exact nofun
  · rename_i exprs hexprs
    obtain ⟨⟨axes, found⟩, haxes, h⟩ := bind_eq_ok_iff.mp h
    obtain ⟨rfl, _⟩ := Prod.mk.inj (pure_eq_ok_iff.mp h)
    intro shape hshape x hx
    obtain rfl := Option.some.inj hshape
    obtain ⟨expr, hexpr, hx⟩ := exists_of_collectEach haxes hx
    have hmem : expr ∈ line.exprs := List.mem_append_right _ (by rwa [hexprs])
    exact hT index expr x (hline expr hmem) (mapError_eq_ok_iff.mp hx)

include hT

/-- A node line is lowered to a node that has what the expressions of the line have. -/
theorem all_lowerLine {line : NodeLine} {spec : LineSpec} (hline : ∀ expr ∈ line.exprs, E expr)
    (h : lowerLine index line = .ok (spec, errors)) : spec.All V T := by
  obtain ⟨⟨calls, callErrors⟩, hcalls, h⟩ := bind_eq_ok_iff.mp h
  obtain ⟨⟨declared, shapeErrors⟩, hdeclared, h⟩ := bind_eq_ok_iff.mp h
  obtain ⟨rfl, _⟩ := Prod.mk.inj (pure_eq_ok_iff.mp h)
  refine ⟨fun spec hspec => ?_, all_lowerShape hT hline hdeclared⟩
  obtain ⟨call, hcall, found, hlower⟩ := exists_of_collectAll hcalls hspec
  exact all_lowerCall hV (fun expr hexpr => hline expr
    (List.mem_append_left _ (List.mem_flatMap.mpr ⟨call, hcall, hexpr⟩))) hlower

/-- The node lines of an inline model are lowered to nodes that have what their expressions have. -/
theorem all_lowerInline {model : InlineBlock} {lines : List LineSpec}
    (hmodel : ∀ line ∈ model.lines, ∀ expr ∈ line.toNodeLine.exprs, E expr)
    (h : lowerInline index model = .ok (lines, errors)) : ∀ line ∈ lines, line.All V T := by
  obtain ⟨⟨specs, found⟩, hspecs, h⟩ := bind_eq_ok_iff.mp h
  obtain ⟨rfl, _⟩ := Prod.mk.inj (pure_eq_ok_iff.mp h)
  intro line hline
  obtain ⟨spec, hspec, hid⟩ := List.mem_filterMap.mp hline
  obtain rfl : spec = some line := hid
  obtain ⟨inner, hinner, _, h⟩ := exists_of_collectAll hspecs hspec
  dsimp only at h
  split at h
  · cases pure_eq_ok_iff.mp h
  · obtain ⟨⟨lowered, _⟩, hlowered, h⟩ := bind_eq_ok_iff.mp h
    obtain ⟨heq, _⟩ := Prod.mk.inj (pure_eq_ok_iff.mp h)
    obtain rfl := Option.some.inj heq
    exact all_lowerLine hV hT (hmodel inner hinner) hlowered

/-- A line of a model is lowered to a node that has what the expressions of the line have. -/
theorem all_lowerNode {line : OuterLine} {spec : NodeSpec}
    (hline : ∀ expr ∈ line.toNodeLine.exprs, E expr)
    (hinner : ∀ block, line.model = some block →
      ∀ inner ∈ block.lines, ∀ expr ∈ inner.toNodeLine.exprs, E expr)
    (h : lowerNode line = .ok (spec, errors)) :
    spec.toLineSpec.All V T ∧ ∀ inner ∈ spec.inner, inner.All V T := by
  obtain ⟨⟨lowered, found⟩, hlowered, h⟩ := bind_eq_ok_iff.mp h
  have hall := all_lowerLine hV hT hline hlowered
  dsimp only at h
  split at h
  · obtain ⟨rfl, _⟩ := Prod.mk.inj (pure_eq_ok_iff.mp h)
    exact ⟨⟨by simp, hall.declared⟩, by simp [NodeSpec.inner]⟩
  · split at h
    · obtain ⟨rfl, _⟩ := Prod.mk.inj (pure_eq_ok_iff.mp h)
      exact ⟨⟨hall.calls, hall.declared⟩, by simp [NodeSpec.inner]⟩
    · rename_i block hblock
      obtain ⟨⟨lines, innerErrors⟩, hlines, h⟩ := bind_eq_ok_iff.mp h
      obtain ⟨rfl, _⟩ := Prod.mk.inj (pure_eq_ok_iff.mp h)
      exact ⟨⟨by simp, hall.declared⟩, all_lowerInline hV hT (hinner block hblock) hlines⟩

/-- A program is lowered to a definition that has what the expressions of the program have, and
whose variables are those that the program declares. -/
theorem all_lowerProgram {program : Program} {definition : Definition}
    (hprogram : ∀ expr ∈ program.exprs, E expr) (h : lowerProgram program = .ok definition) :
    definition.All V T ∧ ∃ model, program.model = some model ∧
      ∀ h ∈ definition.hyperparameters, ∃ decl ∈ model.declarations, decl.key = h.symbol := by
  unfold lowerProgram at h
  split at h
  · cases h
  · rename_i model hmodel
    have hexprs : ∀ expr ∈ model.exprs, E expr := fun expr hexpr =>
      hprogram expr (List.mem_flatMap.mpr ⟨model, Option.mem_toList.mpr hmodel, hexpr⟩)
    simp only [ModelBlock.exprs, List.mem_append, List.mem_flatMap] at hexprs
    obtain ⟨⟨hyperparameters, variableErrors⟩, hvariables, h⟩ := bind_eq_ok_iff.mp h
    obtain ⟨⟨typeOverrides, blockErrors⟩, hblocks, h⟩ := bind_eq_ok_iff.mp h
    obtain ⟨⟨nodes, nodeErrors⟩, hnodes, h⟩ := bind_eq_ok_iff.mp h
    dsimp only at h
    split at h
    · obtain rfl := pure_eq_ok_iff.mp h
      refine ⟨⟨fun parameter hparameter => ?_, fun block hblock => ?_, fun n hn => ?_⟩, model,
        hmodel, fun parameter hparameter => ?_⟩
      · obtain ⟨decl, hdecl, hlower⟩ := exists_of_collectEach hvariables hparameter
        obtain ⟨value, hvalue, hlower⟩ := bind_eq_ok_iff.mp hlower
        obtain rfl := pure_eq_ok_iff.mp hlower
        exact hV none decl value
          (fun expr hexpr => hexprs expr (Or.inl (Or.inl (Or.inl ⟨decl, hdecl, hexpr⟩))))
          (mapError_eq_ok_iff.mp hvalue)
      · obtain ⟨source, hsource, _, hlower⟩ := exists_of_collectAll hblocks hblock
        obtain ⟨⟨assignments, _⟩, hassignments, hlower⟩ := bind_eq_ok_iff.mp hlower
        obtain ⟨rfl, _⟩ := Prod.mk.inj (pure_eq_ok_iff.mp hlower)
        refine all_lowerAssignments hV (fun expr hexpr => ?_) hassignments
        exact hexprs expr (Or.inl (Or.inl (Or.inr ⟨source, hsource, List.mem_flatMap.mp hexpr⟩)))
      · obtain ⟨line, hline, _, hlower⟩ := exists_of_collectAll hnodes hn
        refine all_lowerNode hV hT
          (fun expr hexpr => hexprs expr (Or.inl (Or.inr ⟨line, hline, hexpr⟩)))
          (fun block hblock inner hinner expr hexpr => ?_) hlower
        exact hexprs expr (Or.inr ⟨line, hline, block, Option.mem_toList.mpr hblock, inner, hinner,
          hexpr⟩)
      · obtain ⟨decl, hdecl, hlower⟩ := exists_of_collectEach hvariables hparameter
        obtain ⟨value, -, hlower⟩ := bind_eq_ok_iff.mp hlower
        exact ⟨decl, hdecl, pure_eq_ok_iff.mp hlower ▸ rfl⟩
    · cases h

end Lines

/-- A program is lowered to a definition that is built from its names and literals, and whose
variables are those that the program declares. -/
theorem termsSatisfy_lowerProgram {program : Program} {definition : Definition}
    (hT : Term.Arithmetic T) (hprogram : ∀ expr ∈ program.exprs, expr.LeavesSatisfy T)
    (h : lowerProgram program = .ok definition) :
    definition.TermsSatisfy T ∧ ∃ model, program.model = some model ∧
      ∀ h ∈ definition.hyperparameters, ∃ decl ∈ model.declarations, decl.key = h.symbol :=
  all_lowerProgram (fun _ _ _ => termsSatisfy_lowerValue hT)
    (fun _ _ _ => termsSatisfy_lowerAxis hT) hprogram h

/-- An authored program is lowered to a definition that an author can write. -/
theorem written_lowerProgram {program : Program} {definition : Definition}
    (hprogram : program.Authored) (h : lowerProgram program = .ok definition) :
    definition.Written := by
  obtain ⟨hterms, model, hmodel, hnames⟩ := termsSatisfy_lowerProgram Term.arithmetic_written
    (fun _ hexpr => (hprogram.exprs hexpr).leavesSatisfy) h
  refine ⟨fun parameter hparameter => ?_, hterms⟩
  obtain ⟨decl, hdecl, hkey⟩ := hnames parameter hparameter
  exact hkey ▸ ((hprogram model hmodel).declarations decl hdecl).1

end Shapeline
