import Shapeline.Proofs.Rule.Binding
import Shapeline.Proofs.Rule.Numbers
import Shapeline.Proofs.Rule.Step

/-!
# Chains of strides

Convolutions and poolings that follow each other divide an extent again and again, and each of them
simplifies the quotient before the next one sees it. What is left at the end is equivalent to the
extent divided by the product of all strides. So the order of the strides does not matter, although
the terms that come out may look different.
-/

namespace Shapeline

/-- A rule as it is applied in a chain, with the parameters of the layer. -/
structure RuleUse where
  /-- The name of the layer type. -/
  layer : String
  /-- The rule. -/
  rule : Rule
  /-- The parameters. -/
  params : Parameters
  /-- The placeholders for parameters that nobody has set. -/
  mint : String → Placeholder

namespace RuleUse

/-- The shape that a rule yields when nothing is known about the symbols. -/
def output (u : RuleUse) (shape : Shape) : Outcome Shape := do
  return (← u.rule.apply u.layer shape u.params u.mint .nothing).shape

/-- The stride that a rule divides by, if its family has one. -/
def stride? (u : RuleUse) : Option Term :=
  match u.rule.family with
  | .convolution | .pooling => u.params.term? stride (.int 1)
  | _ => none

/-- A convolution or pooling with the given number of spatial axes, or a pointwise rule. -/
def KeepsRank (spatialRank : ℕ) (u : RuleUse) : Prop :=
  u.rule.family.IsStrided ∧ u.rule.spatialRank = spatialRank ∨ u.rule.family = .pointwise

/-- The shape at the end of a chain. -/
def chain (uses : List RuleUse) (start : Shape) : Outcome Shape :=
  uses.foldlM (fun shape u => u.output shape) start

/-- The strides of a chain in their order. -/
def strides (uses : List RuleUse) : List Term := uses.filterMap stride?

end RuleUse

namespace Term

/-- The product of some terms, which is one if there are none. -/
def product : List Term → Term
  | [] => const 1
  | first :: rest => rest.foldl (op .mul) first

/-- An extent is what is left of another one when that is divided by all of some strides. -/
structure IsQuotient (extent : Term) (strides : List Term) (rest : Term) : Prop where
  /-- What is left lowers. -/
  lowers : rest.Lowers
  /-- The product of the strides divides the extent. -/
  divides : (op .div extent (product strides)).Lowers
  /-- What is left is the quotient. -/
  agrees : rest.Agrees (op .div extent (product strides))

variable {ρ : Instantiation} {d e e' s u : Term} {strides strides' : List Term} {x z : ℚ}

/-- A product that is built from the left has a value if its factors have values. -/
theorem values_of_foldl_mul {first : Term} {rest : List Term}
    (h : (rest.foldl (op .mul) first).valueAt ρ = some x) :
    ∃ y ys, first.valueAt ρ = some y ∧
      List.Forall₂ (fun t y => t.valueAt ρ = some y) rest ys ∧ x = y * ys.prod := by
  induction rest generalizing first with
  | nil => exact ⟨x, [], h, .nil, by rw [List.prod_nil, mul_one]⟩
  | cons t rest ih =>
    obtain ⟨w, ys, hw, hys, rfl⟩ := ih h
    obtain ⟨y, z, hy, hz, hop⟩ := valueAt_op_eq_some_iff.mp hw
    refine ⟨y, z :: ys, hy, .cons hz hys, ?_⟩
    rw [← Option.some.inj hop, List.prod_cons, mul_assoc]

/-- The value of a product is the product of the values of its factors. -/
theorem valueAt_product_eq_some_iff :
    (product strides).valueAt ρ = some x ↔
      ∃ xs, List.Forall₂ (fun t y => t.valueAt ρ = some y) strides xs ∧ x = xs.prod := by
  cases strides with
  | nil => simp [product, valueAt, eq_comm]
  | cons first rest =>
    constructor
    · intro h
      obtain ⟨y, ys, hy, hys, rfl⟩ := values_of_foldl_mul h
      exact ⟨y :: ys, .cons hy hys, List.prod_cons.symm⟩
    · rintro ⟨xs, hxs, rfl⟩
      obtain ⟨y, ys, hy, hys, rfl⟩ := List.forall₂_cons_left_iff.mp hxs
      rw [List.prod_cons]
      exact valueAt_foldl_mul hy hys

/-- The value of a quotient by a product. -/
theorem valueAt_div_product_iff :
    (op .div d (product strides)).valueAt ρ = some z ↔
      ∃ x ys, d.valueAt ρ = some x ∧
        List.Forall₂ (fun t y => t.valueAt ρ = some y) strides ys ∧ ys.prod ≠ 0 ∧
          z = x / ys.prod := by
  rw [valueAt_op_eq_some_iff]
  simp only [valueAt_product_eq_some_iff, Operator.onNumbers, Option.ite_none_left_eq_some,
    Option.some_inj]
  constructor
  · rintro ⟨x, _, hx, ⟨ys, hys, rfl⟩, hne, rfl⟩
    exact ⟨x, ys, hx, hys, hne, rfl⟩
  · rintro ⟨x, ys, hx, hys, hne, rfl⟩
    exact ⟨x, _, hx, ⟨ys, hys, rfl⟩, hne, rfl⟩

/-- Quotients by the same strides in another order agree. -/
theorem agrees_div_product_of_perm (h : strides.Perm strides') :
    (op .div d (product strides)).Agrees (op .div d (product strides')) := by
  intro ρ z z' hz hz'
  obtain ⟨x, ys, hx, hys, _, rfl⟩ := valueAt_div_product_iff.mp hz
  obtain ⟨x', ys', hx', hys', _, rfl⟩ := valueAt_div_product_iff.mp hz'
  obtain rfl := Option.some.inj (hx.symm.trans hx')
  obtain ⟨ws, hws, hperm⟩ := List.perm_comp_forall₂ h hys'
  have hsame : ys = ws := values_kept (List.forall₂_same.mpr fun _ _ _ _ hy => hy) hys hws
  rw [hsame, hperm.prod_eq]

/-- Without strides all of an extent is left. -/
theorem IsQuotient.nil (hd : d.Lowers) : IsQuotient d [] d where
  lowers := hd
  divides := by
    obtain ⟨ρ, x, hx⟩ := lowers_iff_exists_valueAt.mp hd
    exact lowers_of_valueAt (valueAt_div_product_iff.mpr ⟨x, [], hx, .nil, one_ne_zero, rfl⟩)
  agrees ρ x z hx hz := by
    obtain ⟨y, ys, hy, hys, _, rfl⟩ := valueAt_div_product_iff.mp hz
    obtain rfl := List.forall₂_nil_left_iff.mp hys
    rw [List.prod_nil, div_one]
    exact Option.some.inj (hx.symm.trans hy)

/-- Simplifying what is left does not matter. -/
theorem IsQuotient.simplify (h : IsQuotient d strides e) (hu : e.simplify = .ok u) :
    IsQuotient d strides u where
  lowers := by
    obtain ⟨u', hu', hlow⟩ := h.lowers.simplify
    exact Except.ok.inj (hu.symm.trans hu') ▸ hlow
  divides := h.divides
  agrees := (agrees_simplify hu).trans h.lowers h.agrees

/-- A further stride divides what is left. -/
theorem IsQuotient.divide (h : IsQuotient d strides e) (hs : s.Lowers) (hne : ¬ s.Vanishes) :
    IsQuotient d (strides ++ [s]) (op .div e s) := by
  let nested := op .div (op .div d (product strides)) s
  have hnested : nested.Lowers := lowers_op_iff.mpr ⟨h.divides, hs, fun _ => hne⟩
  have hvalue {ρ : Instantiation} {z : ℚ} (hz : nested.valueAt ρ = some z) :
      (op .div d (product (strides ++ [s]))).valueAt ρ = some z := by
    obtain ⟨w, y, hw, hy, hop⟩ := valueAt_op_eq_some_iff.mp hz
    obtain ⟨x, ys, hx, hys, hprod, rfl⟩ := valueAt_div_product_iff.mp hw
    simp only [Operator.onNumbers, Option.ite_none_left_eq_some, Option.some_inj] at hop
    refine valueAt_div_product_iff.mpr
      ⟨x, ys ++ [y], hx, List.rel_append hys (.cons hy .nil), ?_, ?_⟩
    · rw [List.prod_append, List.prod_singleton]
      exact mul_ne_zero hprod hop.1
    · rw [List.prod_append, List.prod_singleton, ← div_div, hop.2]
  refine ⟨lowers_op_iff.mpr ⟨h.lowers, hs, fun _ => hne⟩, ?_, ?_⟩
  · obtain ⟨ρ, z, hz⟩ := lowers_iff_exists_valueAt.mp hnested
    exact lowers_of_valueAt (hvalue hz)
  · have hstep : (op .div e s).Agrees nested := by
      intro ρ z z' hz hz'
      obtain ⟨x, y, hx, hy, hop⟩ := valueAt_op_eq_some_iff.mp hz
      obtain ⟨x', y', hx', hy', hop'⟩ := valueAt_op_eq_some_iff.mp hz'
      rw [h.agrees ρ x x' hx hx', Option.some.inj (hy.symm.trans hy'), hop'] at hop
      exact (Option.some.inj hop).symm
    refine hstep.trans hnested fun ρ z z' hz hz' => ?_
    exact Option.some.inj ((hvalue hz).symm.trans hz')

/-- What is left is found equivalent to the quotient by the product of the strides. -/
theorem IsQuotient.exists_divide (h : IsQuotient d strides e) :
    ∃ q, d.divide (product strides) = .ok q ∧ e.equivalent q = .ok true := by
  obtain ⟨_, hlow, hne⟩ := lowers_op_iff.mp h.divides
  exact ⟨_, divide_eq_ok_iff.mpr ⟨hlow, hne rfl, rfl⟩,
    (equivalent_eq_ok_iff h.lowers h.divides).mpr (iff_of_true rfl h.agrees)⟩

/-- What two orders of the same strides leave is found equivalent. -/
theorem IsQuotient.equivalent_of_perm (h : IsQuotient d strides e)
    (h' : IsQuotient d strides' e') (hperm : strides.Perm strides') :
    e.equivalent e' = .ok true := by
  have hagrees : e.Agrees e' := (h.agrees.trans h.divides (agrees_div_product_of_perm hperm)).trans
    h'.divides h'.agrees.symm
  exact (equivalent_eq_ok_iff h.lowers h'.lowers).mpr (iff_of_true rfl hagrees)

end Term

/-- A strided rule takes the first extent from somewhere and divides the others by the stride. -/
theorem Rule.formula_strided {r : Rule} {p : Parameters} {first : Term} {extents raw : List Term}
    (hstrided : r.family.IsStrided) (h : r.formula p (first :: extents) = some raw) :
    ∃ head step, p.term? stride (.int 1) = some step ∧
      raw = head :: extents.map (.op .div · step) := by
  unfold formula at h
  rcases hstrided with hfamily | hfamily
  · rw [hfamily] at h
    obtain ⟨channels, _, h⟩ := Option.bind_eq_some_iff.mp h
    obtain ⟨step, hstep, h⟩ := Option.bind_eq_some_iff.mp h
    exact ⟨channels, step, hstep, (Option.some.inj h).symm⟩
  · rw [hfamily] at h
    obtain ⟨step, hstep, h⟩ := Option.bind_eq_some_iff.mp h
    exact ⟨first, step, hstep, (Option.some.inj h).symm⟩

namespace RuleUse

open Term (IsQuotient)

variable {u : RuleUse} {uses others : List RuleUse} {first : Term}
  {start extents strides : List Term} {shape final : Shape}

/-- No rule derives a stride. -/
theorem stride_underived {axes : List Term} {mint : String → Placeholder} {derived : Parameters}
    (h : DerivesAll mint axes derived) : derived.get? stride = none := by
  cases hget : derived.get? stride with
  | none => rfl
  | some v =>
    have hnot : ¬ Parameters.IsDerived stride := by decide
    generalize hname : stride = name at hget
    cases h name v hget with
    | axis position => exact absurd hname (by decide)
    | extent _ _ hderived _ => exact absurd (hname ▸ hderived) hnot
    | hole _ _ hderived => exact absurd (hname ▸ hderived) hnot

/-- A rule of a strided family divides by its parameter. -/
theorem stride?_of_isStrided (h : u.rule.family.IsStrided) :
    u.stride? = u.params.term? stride (.int 1) := by
  unfold stride?
  rcases h with h | h <;> rw [h]

/-- The spatial extents that a rule of a chain yields, before they are simplified, are those of its
input, divided by the stride if it has one. -/
theorem exists_of_output (hu : u.KeepsRank extents.length)
    (h : u.output ⟨first :: extents⟩ = .ok shape) :
    ∃ first' raw, List.Forall₂ (fun t t' => t.simplify = .ok t') (first' :: raw) shape.axes ∧
      (u.stride? = none ∧ raw = extents ∨
        ∃ step, u.stride? = some step ∧ raw = extents.map (.op .div · step) ∧
          ∀ x ∈ extents, x.divide step = .ok (.op .div x step)) := by
  obtain ⟨outcome, happly, h⟩ := bind_eq_ok_iff.mp h
  obtain rfl := pure_eq_ok_iff.mp h
  obtain ⟨hrank, ⟨raw⟩, htransform, hsimplify⟩ := Rule.apply_eq_ok happly
  obtain ⟨hformula, hadmits, hderives⟩ := Rule.transform_eq_ok hrank htransform
  rw [Shape.simplify_eq_ok_iff] at hsimplify
  have hterm : (u.params.merged outcome.derived).term? stride (.int 1) =
      u.params.term? stride (.int 1) :=
    Parameters.term?_congr (Parameters.get?_merged_of_none (stride_underived hderives))
  rcases hu with ⟨hstrided, _⟩ | hpointwise
  · obtain ⟨step, hfits⟩ := hadmits.fits hstrided
    have hstep := hterm.symm.trans (term?_of_checkStride hfits.checked)
    obtain ⟨head, step', hstep', rfl⟩ := Rule.formula_strided hstrided hformula
    obtain rfl := Option.some.inj (hstep'.symm.trans (hterm.trans hstep))
    exact ⟨head, _, hsimplify, Or.inr ⟨step', (stride?_of_isStrided hstrided).trans hstep, rfl,
      hfits.quotients⟩⟩
  · rw [Rule.formula, hpointwise] at hformula
    obtain rfl := Option.some.inj hformula
    exact ⟨first, extents, hsimplify, Or.inl ⟨by rw [stride?, hpointwise], rfl⟩⟩

/-- One rule of a chain divides every spatial extent by its stride. -/
theorem quotients_of_output (hu : u.KeepsRank extents.length)
    (h : u.output ⟨first :: extents⟩ = .ok shape)
    (hextents : List.Forall₂ (IsQuotient · strides ·) start extents) :
    ∃ first' extents', shape = ⟨first' :: extents'⟩ ∧
      List.Forall₂ (IsQuotient · (strides ++ u.stride?.toList) ·) start extents' := by
  obtain ⟨first', raw, hsimplify, hraw⟩ := exists_of_output hu h
  obtain ⟨axes⟩ := shape
  obtain ⟨head, extents', -, hrest, rfl⟩ := List.forall₂_cons_left_iff.mp hsimplify
  refine ⟨head, extents', rfl, ?_⟩
  have hleft : List.Forall₂ (IsQuotient · (strides ++ u.stride?.toList) ·) start raw := by
    rcases hraw with ⟨hnone, rfl⟩ | ⟨step, hstep, rfl, hdivide⟩
    · rwa [hnone, Option.toList_none, List.append_nil]
    · rw [hstep, Option.toList_some, List.forall₂_map_right_iff]
      exact forall₂_imp_of_mem hextents (fun _ _ => trivial) hdivide fun _ _ hq _ hx =>
        hq.divide (Term.divide_eq_ok_iff.mp hx).1 (Term.divide_eq_ok_iff.mp hx).2.1
  have hstart : List.Forall₂ (fun d d' : Term => d = d') start start := List.forall₂_refl start
  exact forall₂_transport (fun _ _ _ _ hq hd hs => hd ▸ hq.simplify hs) hleft hstart hrest

/-- A chain divides every spatial extent by all of its strides. -/
theorem quotients_of_chain (huses : ∀ u ∈ uses, u.KeepsRank extents.length)
    (h : chain uses ⟨first :: extents⟩ = .ok final)
    (hextents : List.Forall₂ (IsQuotient · strides ·) start extents) :
    ∃ first' extents', final = ⟨first' :: extents'⟩ ∧
      List.Forall₂ (IsQuotient · (strides ++ RuleUse.strides uses) ·) start extents' := by
  induction uses generalizing first extents strides with
  | nil =>
    obtain rfl := pure_eq_ok_iff.mp h
    exact ⟨first, extents, rfl, by rwa [RuleUse.strides, List.filterMap_nil, List.append_nil]⟩
  | cons u uses ih =>
    obtain ⟨hu, huses⟩ := List.forall_mem_cons.mp huses
    obtain ⟨shape, hout, h⟩ := bind_eq_ok_iff.mp h
    obtain ⟨first', extents', rfl, hextents'⟩ := quotients_of_output hu hout hextents
    have hlen : extents'.length = extents.length :=
      hextents'.length_eq.symm.trans hextents.length_eq
    have hstrides : RuleUse.strides (u :: uses) = u.stride?.toList ++ RuleUse.strides uses := by
      unfold RuleUse.strides
      cases hs : u.stride? with
      | none => rw [List.filterMap_cons_none hs, Option.toList_none, List.nil_append]
      | some s => rw [List.filterMap_cons_some hs, Option.toList_some, List.singleton_append]
    rw [hstrides, ← List.append_assoc]
    exact ih (hlen ▸ huses) h hextents'

/-- **Strides compose.** A chain of convolutions and poolings with a common number of spatial axes,
mixed with pointwise rules, leaves of every spatial extent what is equivalent to the extent divided
by the product of all strides. Two chains with the same strides in another order leave equivalent
spatial extents. -/
theorem chain_divides_by_product_of_strides (hextents : ∀ d ∈ extents, d.Lowers)
    (huses : ∀ u ∈ uses, u.KeepsRank extents.length)
    (h : chain uses ⟨first :: extents⟩ = .ok final) :
    ∃ first' rests, final = ⟨first' :: rests⟩ ∧
      List.Forall₂ (fun d e => ∃ q, d.divide (Term.product (RuleUse.strides uses)) = .ok q ∧
        e.equivalent q = .ok true) extents rests ∧
      ∀ others final', (∀ u ∈ others, u.KeepsRank extents.length) →
        (RuleUse.strides uses).Perm (RuleUse.strides others) →
        chain others ⟨first :: extents⟩ = .ok final' →
        ∃ first'' rests', final' = ⟨first'' :: rests'⟩ ∧
          List.Forall₂ (fun e e' => e.equivalent e' = .ok true) rests rests' := by
  have hstart : List.Forall₂ (IsQuotient · [] ·) extents extents :=
    List.forall₂_same.mpr fun d hd => .nil (hextents d hd)
  obtain ⟨first', rests, rfl, hrests⟩ := quotients_of_chain huses h hstart
  refine ⟨first', rests, rfl, hrests.imp fun _ _ hq => hq.exists_divide, ?_⟩
  intro others final' hothers hperm h'
  obtain ⟨first'', rests', rfl, hrests'⟩ := quotients_of_chain hothers h' hstart
  have hsame : List.Forall₂ (fun d d' : Term => d = d') extents extents :=
    List.forall₂_refl extents
  exact ⟨first'', rests', rfl, forall₂_transport (fun _ _ _ _ hd hq hq' =>
    hq.equivalent_of_perm (hd ▸ hq') hperm) hsame hrests hrests'⟩

/-- A stride of two, an unknown stride and a stride of minus three, in two orders: the extents that
are left look different, but they are equivalent. -/
theorem strides_in_two_orders :
    let use (layer : String) (family : RuleFamily) (params : Parameters) : RuleUse :=
      ⟨layer, ⟨family, 2⟩, params, fun name => ⟨name, 1, layer, name⟩⟩
    let halve := use "Conv2D" .convolution (.ofList [(stride, .int 2)])
    let relu := use "ReLU" .pointwise .empty
    let spread := use "AvgPool2D" .pooling (.ofList [(stride, .dim (.sym "S"))])
    let turn := use "MaxPool2D" .pooling (.ofList [(stride, .dim (.const (-3)))])
    let extents := [Term.op .mul (.const 12) (.sym "H"), .const 36]
    ∃ first first' rests rests',
      chain [halve, relu, spread, turn] ⟨.sym "C" :: extents⟩ = .ok ⟨first :: rests⟩ ∧
        chain [turn, halve, spread] ⟨.sym "C" :: extents⟩ = .ok ⟨first' :: rests'⟩ ∧
        rests ≠ rests' ∧ List.Forall₂ (fun e e' => e.equivalent e' = .ok true) rests rests' := by
  intro use halve relu spread turn extents
  let rests := [Term.op .div (.op .div (.op .div (.op .mul (.const 12) (.sym "H")) (.const 2))
    (.sym "S")) (.const (-3)), .op .div (.op .div (.const 18) (.sym "S")) (.const (-3))]
  let rests' := [Term.op .div (.op .div (.op .div (.op .mul (.const 12) (.sym "H")) (.const (-3)))
    (.const 2)) (.sym "S"), .op .div (.const (-6)) (.sym "S")]
  let channels := Term.hole ⟨outputChannels, 1, "Conv2D", outputChannels⟩
  have hchain : chain [halve, relu, spread, turn] ⟨.sym "C" :: extents⟩ =
      .ok ⟨channels :: rests⟩ := toOption_eq_some_iff.mp (by decide +kernel)
  have hchain' : chain [turn, halve, spread] ⟨.sym "C" :: extents⟩ = .ok ⟨channels :: rests'⟩ :=
    toOption_eq_some_iff.mp (by decide +kernel)
  have hkeeps : ∀ u ∈ [halve, relu, spread, turn], u.KeepsRank extents.length := by
    simp [halve, relu, spread, turn, use, extents, KeepsRank, RuleFamily.IsStrided]
  have hperm : (strides [halve, relu, spread, turn]).Perm (strides [turn, halve, spread]) := by
    decide +kernel
  obtain ⟨_, _, heq, -, hothers⟩ :=
    chain_divides_by_product_of_strides (by decide +kernel) hkeeps hchain
  obtain ⟨_, _, heq', hequivalent⟩ := hothers [turn, halve, spread] _
    (fun u hu => hkeeps u (by simp at hu ⊢; tauto)) hperm hchain'
  simp only [Shape.mk.injEq, List.cons.injEq] at heq heq'
  obtain ⟨rfl, rfl⟩ := heq
  obtain ⟨rfl, rfl⟩ := heq'
  exact ⟨_, _, _, _, hchain, hchain', by decide, hequivalent⟩

end RuleUse

end Shapeline
