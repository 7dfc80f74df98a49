import Shapeline.Proofs.Term.Composition
import Shapeline.Proofs.Term.Evaluation

/-!
# What simplification folds

Simplification is defined where normal forms are, keeps the meaning of a term and does all it can at
once. What it folds is decided by pairs of integers: a quotient of integers that is no integer stays
as it is, and then everything built on it stays too, unless it is multiplied by zero. A term whose
symbols are all replaced by integers is therefore left as an integer exactly if its value is one and
no such quotient is met on the way.
-/

namespace Shapeline

namespace Term

variable {numbers : Dictionary ℤ} {ρ : Instantiation} {t u s left right : Term} {o : Operator}
  {x : ℚ} {n : ℤ}

/-- **Simplification keeps the meaning and reaches a fixed point.** A term is refused by
simplification exactly if it has no normal form, and both times for a zero divisor. Every other term
is simplified to an equivalent one without new symbols, which is not simplified further. -/
theorem simplify_settles (t : Term) :
    (RaisesArithmetic t.simplify ↔ RaisesArithmetic t.normalForm) ∧
      (RaisesArithmetic t.simplify ∨
        ∃ u, t.simplify = .ok u ∧ u.equivalent t = .ok true ∧ u.symbols ⊆ t.symbols ∧
          u.simplify = .ok u) := by
  by_cases hlow : t.Lowers
  · obtain ⟨u, hu, hulow⟩ := hlow.simplify
    obtain ⟨f, hf⟩ := hlow
    have hequal : u.equivalent t = .ok true :=
      (equivalent_eq_ok_iff hulow ⟨f, hf⟩).mpr (iff_of_true rfl (agrees_simplify hu))
    refine ⟨iff_of_false ?_ ?_, Or.inr ⟨u, hu, hequal, fun _ => mem_symbols_of_simplify hu,
      simplify_simplify hu⟩⟩
    · rintro ⟨d, hd, -⟩
      cases hu.symm.trans hd
    · rintro ⟨d, hd, -⟩
      cases hf.symm.trans hd
  · have hsimplify : RaisesArithmetic t.simplify :=
      (Guarded.of_divisions fails_simplify fun u hu => hlow (lowers_of_simplify hu)).resolve_right
        fun ⟨_, _, hfalse⟩ => hfalse
    have hform : RaisesArithmetic t.normalForm :=
      (Guarded.of_divisions fails_fraction fun f hf => hlow ⟨f, hf⟩).resolve_right
        fun ⟨_, _, hfalse⟩ => hfalse
    exact ⟨iff_of_true hsimplify hform, Or.inl hsimplify⟩

/-- Two integers are folded exactly if the operator leaves an integer. -/
theorem foldConstants_eq_some_iff {a b : ℤ} :
    foldConstants o a b = .ok (some n) ↔ o.onNumbers a b = some (n : ℚ) := by
  cases o with
  | div =>
    by_cases hb : b = 0
    · simp [foldConstants, Operator.onNumbers, hb, throw, throwThe, MonadExceptOf.throw]
    · have hb' : (b : ℚ) ≠ 0 := Int.cast_ne_zero.mpr hb
      have hquotient : (a : ℚ) / b = n ↔ a = n * b := by
        rw [div_eq_iff hb']
        exact_mod_cast Iff.rfl
      simp only [foldConstants, hb, if_false, pure_eq_ok_iff, Operator.onNumbers, hb',
        Option.some.injEq, hquotient]
      by_cases hmod : a % b = 0
      · obtain ⟨c, rfl⟩ := Int.dvd_of_emod_eq_zero hmod
        simp [hb, mul_comm b c, eq_comm]
      · simp only [hmod, if_false, reduceCtorEq, false_iff]
        rintro rfl
        exact hmod (Int.mul_emod_left n b)
  | _ =>
    simp only [foldConstants, pure_eq_ok_iff, Operator.onNumbers, Option.some.injEq]
    exact_mod_cast eq_comm

/-- A product with zero is combined to zero. -/
theorem combine_mul_zero (h : left = const 0 ∨ right = const 0) :
    combine .mul left right = .ok (const 0) := by
  rcases h with rfl | rfl
  · cases right <;> simp [combine, const?, foldConstants, pure, Except.pure, bind, Except.bind]
  · cases left <;> simp [combine, const?, foldConstants, pure, Except.pure, bind, Except.bind]

/-- Two simplified terms are combined to an integer exactly if both are integers and the operator
leaves an integer, or one of them is zero and they are multiplied. -/
theorem combine_eq_const_iff (h : combine o left right = .ok u) :
    (∃ n, u = const n) ↔
      (∃ a b n : ℤ, left = const a ∧ right = const b ∧ o.onNumbers a b = some (n : ℚ)) ∨
        o = .mul ∧ (left = const 0 ∨ right = const 0) := by
  constructor
  · rintro ⟨n, rfl⟩
    cases combines_of_combine h with
    | folded ha hb hfold =>
      exact Or.inl ⟨_, _, n, ha, hb, foldConstants_eq_some_iff.mp hfold⟩
    | zero ho hzero => exact Or.inr ⟨ho, hzero⟩
    | keepsLeft hnone => cases hnone
    | keepsRight hnone => cases hnone
  · rintro (⟨a, b, n, rfl, rfl, hn⟩ | ⟨rfl, hzero⟩)
    · have hfold : combine o (const a) (const b) = .ok (const n) :=
        bind_eq_ok_iff.mpr ⟨some n, foldConstants_eq_some_iff.mpr hn, rfl⟩
      exact ⟨n, Except.ok.inj (h.symm.trans hfold)⟩
    · exact ⟨0, Except.ok.inj (h.symm.trans (combine_mul_zero hzero))⟩

/-- A term folds at numbers for its symbols: it is a number or a symbol, both operands fold and the
operator leaves an integer, or it is a product and one of the operands folds to zero. -/
def FoldsAt (ρ : Instantiation) : Term → Prop
  | op o left right =>
    left.FoldsAt ρ ∧ right.FoldsAt ρ ∧ (∃ n : ℤ, (op o left right).valueAt ρ = some (n : ℚ)) ∨
      o = .mul ∧ (left.FoldsAt ρ ∧ left.valueAt ρ = some 0 ∨
        right.FoldsAt ρ ∧ right.valueAt ρ = some 0)
  | _ => True

/-- The quotients in a term, those inside of other quotients too. -/
def quotients : Term → List Term
  | op o left right =>
    left.quotients ++ right.quotients ++ if o = .div then [op o left right] else []
  | _ => []

/-- A symbol has a number where the term has a value. -/
theorem isSome_of_valueAt (hx : t.valueAt ρ = some x) : ∀ name ∈ t.symbols, (ρ name).isSome := by
  intro name hname
  induction t generalizing x with
  | const n => cases hname
  | sym other =>
    rw [List.mem_singleton.mp hname]
    exact Option.isSome_of_eq_some hx
  | hole p =>
    rw [List.mem_singleton.mp hname]
    exact Option.isSome_of_eq_some hx
  | op o left right ihl ihr =>
    obtain ⟨y, z, hy, hz, _⟩ := valueAt_op_eq_some_iff.mp hx
    rcases Names.mem_union.mp hname with hname | hname
    · exact ihl hy hname
    · exact ihr hz hname

/-- The symbols of a term that has a value at integers have integers. -/
theorem contains_of_valueAt (hx : t.valueAt (.ofIntegers numbers) = some x) :
    ∀ name ∈ t.symbols, numbers.contains name = true := by
  intro name hname
  have hsome := isSome_of_valueAt hx name hname
  rw [Instantiation.ofIntegers, Option.isSome_map] at hsome
  exact Dictionary.contains_iff.mpr (Option.isSome_iff_exists.mp hsome)

/-- A term in which every quotient is an integer folds. -/
theorem foldsAt_of_quotients (hx : t.valueAt (.ofIntegers numbers) = some x)
    (hquotients : ∀ q ∈ t.quotients, ∃ n : ℤ, q.valueAt (.ofIntegers numbers) = some (n : ℚ)) :
    t.FoldsAt (.ofIntegers numbers) ∧ ∃ n : ℤ, x = n := by
  induction t generalizing x with
  | const n => exact ⟨trivial, n, (Option.some.inj hx).symm⟩
  | sym name =>
    obtain ⟨n, _, hn⟩ := Option.map_eq_some_iff.mp hx
    exact ⟨trivial, n, hn.symm⟩
  | hole p =>
    obtain ⟨n, _, hn⟩ := Option.map_eq_some_iff.mp hx
    exact ⟨trivial, n, hn.symm⟩
  | op o left right ihl ihr =>
    obtain ⟨y, z, hy, hz, hop⟩ := valueAt_op_eq_some_iff.mp hx
    simp only [quotients, List.forall_mem_append] at hquotients
    obtain ⟨⟨hleft, hright⟩, hself⟩ := hquotients
    obtain ⟨hl, a, rfl⟩ := ihl hy hleft
    obtain ⟨hr, b, rfl⟩ := ihr hz hright
    have hinteger : ∃ n : ℤ, x = n := by
      cases o with
      | add => exact ⟨a + b, by rw [Int.cast_add]; exact (Option.some.inj hop).symm⟩
      | sub => exact ⟨a - b, by rw [Int.cast_sub]; exact (Option.some.inj hop).symm⟩
      | mul => exact ⟨a * b, by rw [Int.cast_mul]; exact (Option.some.inj hop).symm⟩
      | div =>
        obtain ⟨n, hn⟩ := hself _ (List.mem_singleton_self _)
        exact ⟨n, Option.some.inj (hx.symm.trans hn)⟩
    obtain ⟨n, rfl⟩ := hinteger
    exact ⟨Or.inl ⟨hl, hr, n, hx⟩, n, rfl⟩

/-- What is left of a term at integers has the value of the term, whatever the numbers are. -/
theorem valueAt_simplify_ofIntegers (hx : t.valueAt (.ofIntegers numbers) = some x)
    (hs : t.substitute (.ofIntegers numbers) = .ok s) (hu : s.simplify = .ok u)
    (ρ : Instantiation) : u.valueAt ρ = some x := by
  have hsx : s.valueAt ρ = some x := by
    rw [valueAt_of_substitute hs, valueAt_under_ofIntegers (contains_of_valueAt hx), hx]
  obtain ⟨v, hv, hvx⟩ := simplify_valueAt hsx
  exact Except.ok.inj (hu.symm.trans hv) ▸ hvx

/-- Which integer is left of a term is told by the value of the term. -/
theorem eq_const_iff_of_exists (hx : t.valueAt (.ofIntegers numbers) = some x)
    (hs : t.substitute (.ofIntegers numbers) = .ok s) (hu : s.simplify = .ok u)
    (hfolds : (∃ n, u = const n) ↔ t.FoldsAt (.ofIntegers numbers)) :
    u = const n ↔ t.FoldsAt (.ofIntegers numbers) ∧ x = n := by
  have hux := valueAt_simplify_ofIntegers hx hs hu (.total fun _ => 0)
  constructor
  · rintro rfl
    exact ⟨hfolds.mp ⟨n, rfl⟩, (Option.some.inj hux).symm⟩
  · rintro ⟨h, rfl⟩
    obtain ⟨m, rfl⟩ := hfolds.mpr h
    rw [Int.cast_injective (Option.some.inj hux)]

/-- An integer is left of a term at integers if and only if the term folds. -/
theorem exists_const_iff_foldsAt (hx : t.valueAt (.ofIntegers numbers) = some x)
    (hs : t.substitute (.ofIntegers numbers) = .ok s) (hu : s.simplify = .ok u) :
    (∃ n, u = const n) ↔ t.FoldsAt (.ofIntegers numbers) := by
  have hleaf {name : String} {stays : Term} {x : ℚ} {s u : Term}
      (hx : Instantiation.ofIntegers numbers name = some x)
      (hs : (Substitution.ofIntegers numbers name).getD (pure stays) = .ok s)
      (hu : s.simplify = .ok u) : ∃ n, u = const n := by
    obtain ⟨n, hn, -⟩ := Option.map_eq_some_iff.mp hx
    rw [ofIntegers_eq, hn] at hs
    obtain rfl := Except.ok.inj hs
    exact ⟨n, (Except.ok.inj hu).symm⟩
  induction t generalizing x s u with
  | const n =>
    obtain rfl := Except.ok.inj hs
    exact iff_of_true ⟨n, (Except.ok.inj hu).symm⟩ trivial
  | sym name => exact iff_of_true (hleaf hx hs hu) trivial
  | hole p => exact iff_of_true (hleaf hx hs hu) trivial
  | op o left right ihl ihr =>
    obtain ⟨y, z, hy, hz, hop⟩ := valueAt_op_eq_some_iff.mp hx
    obtain ⟨l, r, hl, hr, rfl, -⟩ := substitute_op_iff.mp hs
    obtain ⟨l', hl', hu⟩ := bind_eq_ok_iff.mp hu
    obtain ⟨r', hr', hu⟩ := bind_eq_ok_iff.mp hu
    have hleft {a : ℤ} : l' = const a ↔ left.FoldsAt (.ofIntegers numbers) ∧ y = a :=
      eq_const_iff_of_exists hy hl hl' (ihl hy hl hl')
    have hright {b : ℤ} : r' = const b ↔ right.FoldsAt (.ofIntegers numbers) ∧ z = b :=
      eq_const_iff_of_exists hz hr hr' (ihr hz hr hr')
    rw [combine_eq_const_iff hu, FoldsAt, hx, hy, hz]
    refine or_congr ⟨?_, ?_⟩ (and_congr_right fun _ => or_congr ?_ ?_)
    · rintro ⟨a, b, n, ha, hb, hn⟩
      obtain ⟨hleftFolds, rfl⟩ := hleft.mp ha
      obtain ⟨hrightFolds, rfl⟩ := hright.mp hb
      exact ⟨hleftFolds, hrightFolds, n, hop.symm.trans hn⟩
    · rintro ⟨hleftFolds, hrightFolds, n, hn⟩
      obtain ⟨a, ha⟩ := (ihl hy hl hl').mpr hleftFolds
      obtain ⟨b, hb⟩ := (ihr hz hr hr').mpr hrightFolds
      exact ⟨a, b, n, ha, hb, by rw [← (hleft.mp ha).2, ← (hright.mp hb).2, hop, hn]⟩
    · rw [hleft, Int.cast_zero, Option.some.injEq]
    · rw [hright, Int.cast_zero, Option.some.injEq]

/-- A term with a value at integers can be simplified once these are substituted. -/
theorem exists_simplify_ofIntegers (hx : t.valueAt (.ofIntegers numbers) = some x) :
    ∃ s u, t.substitute (.ofIntegers numbers) = .ok s ∧ s.simplify = .ok u := by
  have hunder : t.valueAt ((Instantiation.total fun _ => 0).under (.ofIntegers numbers)) = some x :=
    (valueAt_under_ofIntegers (contains_of_valueAt hx)).trans hx
  obtain ⟨s, hs⟩ := exists_substitute hunder
  obtain ⟨u, hu, -⟩ := simplify_valueAt ((valueAt_of_substitute hs).trans hunder)
  exact ⟨s, u, hs, hu⟩

end Term

open Term

variable {numbers : Dictionary ℤ}

/-- The axes of a shape at integers are integers where the extents fold. -/
def Shape.Folds (numbers : Dictionary ℤ) (s s' : Shape) : Prop :=
  List.Forall₂ (fun axis u => ∀ n : ℤ, u = const n ↔
    axis.FoldsAt (.ofIntegers numbers) ∧ axis.valueAt (.ofIntegers numbers) = some (n : ℚ))
    s.axes s'.axes

/-- A shape whose extents have values at integers can be simplified once these are substituted. -/
theorem Shape.exists_folds {s : Shape}
    (h : ∀ axis ∈ s.axes, ∃ x, axis.valueAt (.ofIntegers numbers) = some x) :
    ∃ s', (s.substitute (.ofIntegers numbers) >>= Shape.simplify) = .ok s' ∧
      s.Folds numbers s' := by
  have haxes : ∀ axis ∈ s.axes, ∃ p : Term × Term,
      axis.substitute (.ofIntegers numbers) = .ok p.1 ∧ p.1.simplify = .ok p.2 ∧
        ∀ n : ℤ, p.2 = const n ↔
          axis.FoldsAt (.ofIntegers numbers) ∧ axis.valueAt (.ofIntegers numbers) = some (n : ℚ) := by
    intro axis haxis
    obtain ⟨x, hx⟩ := h axis haxis
    obtain ⟨t, u, ht, hu⟩ := exists_simplify_ofIntegers hx
    refine ⟨(t, u), ht, hu, fun n => ?_⟩
    rw [hx, Option.some.injEq]
    exact eq_const_iff_of_exists hx ht hu (exists_const_iff_foldsAt hx ht hu)
  obtain ⟨ps, hps⟩ := exists_forall₂ haxes
  refine ⟨⟨ps.map Prod.snd⟩, bind_eq_ok_iff.mpr ⟨⟨ps.map Prod.fst⟩,
    Shape.substitute_eq_ok_iff.mpr ?_, Shape.simplify_eq_ok_iff.mpr ?_⟩, ?_⟩
  · exact List.forall₂_map_right_iff.mpr (hps.imp fun _ _ hp => hp.1)
  · have hself : List.Forall₂ (fun p q : Term × Term => p.1.simplify = .ok q.2) ps ps := by
      refine List.forall₂_same.mpr fun p hp => ?_
      obtain ⟨_, -, hp⟩ := exists_of_mem_right hps hp
      exact hp.2.1
    exact List.forall₂_map_right_iff.mpr (List.forall₂_map_left_iff.mpr hself)
  · exact List.forall₂_map_right_iff.mpr (hps.imp fun _ _ hp => hp.2.2)

/-- **What is left of an extent at integers.** A term that has a value at integers for its symbols is
left as a term without symbols of that value. It is left as an integer exactly if it folds, and it
does so if every quotient in it is an integer. The bound shapes of a graph show such an extent as an
integer, and no other. -/
theorem integral_extents_fold (numbers : Dictionary ℤ) :
    (∀ (t : Term) (x : ℚ), t.valueAt (.ofIntegers numbers) = some x →
      ∃ s u, t.substitute (.ofIntegers numbers) = .ok s ∧ s.simplify = .ok u ∧
        (∀ ρ, u.valueAt ρ = some x) ∧
        (∀ n : ℤ, u = const n ↔ t.FoldsAt (.ofIntegers numbers) ∧ x = n) ∧
        ((∀ q ∈ t.quotients, ∃ n : ℤ, q.valueAt (.ofIntegers numbers) = some (n : ℚ)) →
          ∃ n, u = const n)) ∧
    ∀ (g : Graph) (given : Dictionary Value),
      g.bindings given = .ok (numbers.map fun _ n => const n) →
      (∀ node ∈ g.nodes, ∀ axis ∈ node.output.axes,
        ∃ x, axis.valueAt (.ofIntegers numbers) = some x) →
      ∃ shapes, g.boundShapes given = .ok shapes ∧
        List.Forall₂ (fun (node : GraphNode) shape => node.output.Folds numbers shape)
          g.nodes shapes := by
  refine ⟨fun t x hx => ?_, fun g given hbindings hdefined => ?_⟩
  · obtain ⟨s, u, hs, hu⟩ := exists_simplify_ofIntegers hx
    have hfolds := exists_const_iff_foldsAt hx hs hu
    exact ⟨s, u, hs, hu, valueAt_simplify_ofIntegers hx hs hu,
      fun n => eq_const_iff_of_exists hx hs hu hfolds,
      fun hquotients => hfolds.mpr (foldsAt_of_quotients hx hquotients).1⟩
  · obtain ⟨shapes, hshapes⟩ := exists_forall₂ fun node hnode =>
      Shape.exists_folds (hdefined node hnode)
    refine ⟨shapes, bind_eq_ok_iff.mpr ⟨_, hbindings, mapM_eq_ok_iff.mpr ?_⟩, ?_⟩
    · exact hshapes.imp fun _ _ h => h.1
    · exact hshapes.imp fun _ _ h => h.2

/-- At `H = 3` the extent `H / 2 * 2` is three, but stays `3 / 2 * 2`, because the quotient is no
integer. The extent `H / 3 * 2` is left as the integer two. -/
theorem halved_extent_stays :
    let numbers : Dictionary ℤ := .ofList [("H", 3)]
    let halved := op .mul (op .div (sym "H") (const 2)) (const 2)
    let thirds := op .mul (op .div (sym "H") (const 3)) (const 2)
    let left := op .mul (op .div (const 3) (const 2)) (const 2)
    let shape : Shape := ⟨[halved, thirds]⟩
    let g : Graph := ⟨"Extents", [{ index := 0, input := shape, inferred := shape, output := shape }],
      [], ["H"]⟩
    let given : Dictionary Value := .ofList [("H", .int 3)]
    halved.valueAt (.ofIntegers numbers) = some 3 ∧
      halved.substitute (.ofIntegers numbers) = .ok left ∧ left.simplify = .ok left ∧
      (∀ ρ, left.valueAt ρ = some 3) ∧ ¬ halved.FoldsAt (.ofIntegers numbers) ∧
      thirds.valueAt (.ofIntegers numbers) = some 2 ∧
      (∀ q ∈ thirds.quotients, ∃ n : ℤ, q.valueAt (.ofIntegers numbers) = some (n : ℚ)) ∧
      (∃ s, thirds.substitute (.ofIntegers numbers) = .ok s ∧ s.simplify = .ok (const 2)) ∧
      g.bindings given = .ok (numbers.map fun _ n => const n) ∧
      g.boundShapes given = .ok [⟨[left, const 2]⟩] ∧ shape.Folds numbers ⟨[left, const 2]⟩ := by
  intro numbers halved thirds left shape g given
  have hH : Instantiation.ofIntegers numbers "H" = some 3 := by
    have hget : numbers.get? "H" = some 3 := by decide +kernel
    rw [Instantiation.ofIntegers, hget]
    rfl
  have hhalved : halved.valueAt (.ofIntegers numbers) = some 3 := by
    norm_num [halved, valueAt, Operator.onNumbers, hH]
  have hthirds : thirds.valueAt (.ofIntegers numbers) = some 2 := by
    norm_num [thirds, valueAt, Operator.onNumbers, hH]
  have hquotients : ∀ q ∈ thirds.quotients,
      ∃ n : ℤ, q.valueAt (.ofIntegers numbers) = some (n : ℚ) := by
    have hlist : thirds.quotients = [op .div (sym "H") (const 3)] := rfl
    rw [hlist, List.forall_mem_singleton]
    exact ⟨1, by norm_num [valueAt, Operator.onNumbers, hH]⟩
  have hsubstitute : halved.substitute (.ofIntegers numbers) = .ok left := by decide +kernel
  have hsimplify : left.simplify = .ok left := by decide +kernel
  have hbindings : g.bindings given = .ok (numbers.map fun _ n => const n) := by decide +kernel
  have hbound : g.boundShapes given = .ok [⟨[left, const 2]⟩] := by decide +kernel
  obtain ⟨hterms, hgraphs⟩ := integral_extents_fold numbers
  obtain ⟨s, u, hs, hu, hvalue, hfolds, -⟩ := hterms halved 3 hhalved
  obtain rfl := Except.ok.inj (hs.symm.trans hsubstitute)
  obtain rfl := Except.ok.inj (hu.symm.trans hsimplify)
  obtain ⟨s', u', hs', hu', hvalue', -, hinteger⟩ := hterms thirds 2 hthirds
  obtain ⟨n, rfl⟩ := hinteger hquotients
  have hn : n = 2 := Int.cast_injective (Option.some.inj (hvalue' (.total fun _ => 0)))
  obtain ⟨shapes, hshapes, hfold⟩ := hgraphs g given hbindings (by
    simp [g, shape, hhalved, hthirds])
  obtain rfl := Except.ok.inj (hshapes.symm.trans hbound)
  refine ⟨hhalved, hsubstitute, hsimplify, hvalue, fun h => ?_, hthirds, hquotients,
    ⟨s', hs', hn ▸ hu'⟩, hbindings, hbound, (List.forall₂_cons.mp hfold).1⟩
  have hne : left ≠ const 3 := by simp [left]
  exact hne ((hfolds 3).mpr ⟨h, rfl⟩)

end Shapeline
