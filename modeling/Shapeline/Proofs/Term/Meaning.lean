import Shapeline.Proofs.Algebra.Fraction
import Shapeline.Proofs.Term.Value

/-!
# Terms as rational functions

A term lowers if its normal form exists, that is, if no divisor in it is the zero function. The
fraction of such a term takes the values of the term, and conversely a term that has a value
somewhere lowers. Terms that lower agree exactly if their fractions represent one rational function,
because two different rational functions differ at a point where both terms have values.
-/

namespace Shapeline

open LawfulGcdRing

namespace Term

/-- The normal form of a term exists. -/
def Lowers (t : Term) : Prop := ∃ f, t.normalForm = .ok f

instance : DecidablePred Lowers := fun t =>
  match h : t.normalForm with
  | .ok f => isTrue ⟨f, h⟩
  | .error _ => isFalse fun ⟨_, hf⟩ => by cases h.symm.trans hf

/-- The instantiation that gives the names of a list the coordinates of a point. -/
def atPoint (names : List String) (point : ℕ → ℚ) : Instantiation :=
  .total fun name => point (names.idxOf name)

/-- An operator applied to two fractions. -/
def onFractions {n : ℕ} : Operator → Fraction n → Fraction n → Fraction n
  | .add, a, b => a + b
  | .sub, a, b => a - b
  | .mul, a, b => a * b
  | .div, a, b => a / b

/-- An operator applied to two elements of a field. -/
def onField {K : Type} [Field K] : Operator → K → K → K
  | .add, a, b => a + b
  | .sub, a, b => a - b
  | .mul, a, b => a * b
  | .div, a, b => a / b

/-- The operators of fractions are those of the field of rational functions. -/
theorem toField_onFractions {n : ℕ} {o : Operator} {a b : Fraction n} (ha : a.den ≠ 0)
    (hb : b.den ≠ 0) (hzero : o = .div → b.isZero = false) :
    (onFractions o a b).toField = onField o a.toField b.toField ∧
      (onFractions o a b).den ≠ 0 := by
  cases o with
  | add => exact Fraction.toField_add ha hb
  | sub => exact Fraction.toField_sub ha hb
  | mul => exact Fraction.toField_mul ha hb
  | div => exact Fraction.toField_div ha (hzero rfl)

/-- The operators of rational functions are those of their values. -/
theorem takesValue_onField {n : ℕ} {o : Operator} {point : ℕ → ℚ} {f g : FunctionField n}
    {x y z : ℚ} (hx : TakesValue point f x) (hy : TakesValue point g y)
    (hz : o.onNumbers x y = some z) : TakesValue point (onField o f g) z := by
  cases o with
  | add => exact Option.some.inj hz ▸ hx.add hy
  | sub => exact Option.some.inj hz ▸ hx.sub hy
  | mul => exact Option.some.inj hz ▸ hx.mul hy
  | div =>
    simp only [Operator.onNumbers, Option.ite_none_left_eq_some, Option.some.injEq] at hz
    exact hz.2 ▸ hx.div hy hz.1

/-- An operator leaves a reduced fraction. -/
theorem reduced_onFractions {n : ℕ} {o : Operator} {a b : Fraction n} (ha : a.den ≠ 0)
    (hb : b.den ≠ 0) (hzero : o = .div → b.isZero = false) : (onFractions o a b).Reduced := by
  cases o with
  | add => exact Fraction.reduced_reduce _ (mul_ne_zero' ha hb)
  | sub => exact Fraction.reduced_reduce _ (mul_ne_zero' ha hb)
  | mul => exact Fraction.reduced_reduce _ (mul_ne_zero' ha hb)
  | div =>
    have hnum : b.num ≠ 0 := of_decide_eq_false (hzero rfl)
    exact Fraction.reduced_reduce _ (mul_ne_zero' ha hnum)

/-- The fraction of an operator exists if those of its operands do and the divisor is not zero. -/
theorem fraction_op_eq_ok_iff {names : List String} {o : Operator} {left right : Term}
    {f : Fraction names.length} :
    (op o left right).fraction names = .ok f ↔
      ∃ a b, left.fraction names = .ok a ∧ right.fraction names = .ok b ∧
        (o = .div → b.isZero = false) ∧ f = onFractions o a b := by
  simp only [fraction, bind, Except.bind]
  cases left.fraction names with
  | error e => simp
  | ok a =>
    cases right.fraction names with
    | error e => simp
    | ok b =>
      cases o with
      | div => cases hzero : b.isZero <;>
          simp [hzero, onFractions, pure, Except.pure, throw, throwThe, MonadExceptOf.throw,
            @eq_comm _ f]
      | _ => simp [onFractions, pure, Except.pure, @eq_comm _ f]

/-- A fraction has the meaning of a term: it takes the values of the term, and there are values to
take at every point that misses the zeros of some polynomial. -/
structure Denotes (names : List String) (t : Term) (f : Fraction names.length) : Prop where
  /-- The denominator is not the zero polynomial. -/
  den_ne_zero : f.den ≠ 0
  /-- Where the term has a value, the fraction takes it. -/
  takesValue : ∀ point x, t.valueAt (atPoint names point) = some x → TakesValue point f.toField x
  /-- The term has values almost everywhere. -/
  generic : ∃ p : Poly.Ring names.length, p ≠ 0 ∧
    ∀ point, Poly.evalHom _ point p ≠ 0 → ∃ x, t.valueAt (atPoint names point) = some x

variable {names : List String}

/-- A polynomial has the meaning of a term that has its values everywhere. -/
theorem Denotes.ofPoly {t : Term} {p : Poly names.length}
    (h : ∀ point, t.valueAt (atPoint names point) = some (Poly.evalHom _ point (embed p))) :
    Denotes names t ⟨p, 1⟩ where
  den_ne_zero := one_ne_zero'
  takesValue point x hx := by
    rw [h point, Option.some.injEq] at hx
    rw [← hx, Fraction.toField, embed_one, map_one, div_one]
    exact TakesValue.ofPoly point (embed p)
  generic := ⟨1, one_ne_zero, fun point _ => ⟨_, h point⟩⟩

/-- Fractions of operands with their meanings make a fraction with the meaning of the operator. -/
theorem Denotes.op {o : Operator} {left right : Term} {a b : Fraction names.length}
    (hleft : Denotes names left a) (hright : Denotes names right b)
    (hzero : o = .div → b.isZero = false) :
    Denotes names (op o left right) (onFractions o a b) := by
  obtain ⟨hfield, hden⟩ := toField_onFractions hleft.den_ne_zero hright.den_ne_zero hzero
  refine ⟨hden, fun point z hz => ?_, ?_⟩
  · obtain ⟨x, y, hx, hy, hop⟩ := valueAt_op_eq_some_iff.mp hz
    rw [hfield]
    exact takesValue_onField (hleft.takesValue point x hx) (hright.takesValue point y hy) hop
  · obtain ⟨p, hp, hpval⟩ := hleft.generic
    obtain ⟨q, hq, hqval⟩ := hright.generic
    let s : Poly.Ring names.length := if o = .div then embed b.num else 1
    have hs : s ≠ 0 := by
      by_cases ho : o = .div
      · have hnum : b.num ≠ 0 := of_decide_eq_false (hzero ho)
        simpa [s, ho] using hnum
      · simp [s, ho]
    refine ⟨p * q * s, mul_ne_zero (mul_ne_zero hp hq) hs, fun point hpoint => ?_⟩
    rw [map_mul, map_mul, mul_ne_zero_iff, mul_ne_zero_iff] at hpoint
    obtain ⟨⟨hpoint_p, hpoint_q⟩, hpoint_s⟩ := hpoint
    obtain ⟨x, hx⟩ := hpval point hpoint_p
    obtain ⟨y, hy⟩ := hqval point hpoint_q
    have hresult : (o.onNumbers x y).isSome := by
      rw [Operator.onNumbers_isSome_iff]
      intro ho
      have hnum : Poly.evalHom _ point (embed b.num) ≠ 0 := by simpa [s, ho] using hpoint_s
      have hden' : embed b.den ≠ 0 := by
        rw [Ne, embed_eq_zero]
        exact hright.den_ne_zero
      exact TakesValue.ne_zero_of_num hden' hnum (hright.takesValue point y hy)
    obtain ⟨z, hz⟩ := Option.isSome_iff_exists.mp hresult
    exact ⟨z, valueAt_op_eq_some_iff.mpr ⟨x, y, hx, hy, hz⟩⟩

/-- The fraction of a term has the meaning of the term. -/
theorem fraction_denotes {t : Term} (hnames : ∀ name ∈ t.symbols, name ∈ names)
    {f : Fraction names.length} (hf : t.fraction names = .ok f) : Denotes names t f := by
  induction t generalizing f with
  | const n =>
    obtain rfl := Except.ok.inj hf
    exact Denotes.ofPoly fun point => by rw [Poly.evalHom_ofInt]; rfl
  | sym name =>
    obtain rfl := Except.ok.inj hf
    have hlt := List.idxOf_lt_length_of_mem (hnames name (by simp [symbols]))
    exact Denotes.ofPoly fun point => by rw [Poly.evalHom_indeterminate point hlt]; rfl
  | hole p =>
    obtain rfl := Except.ok.inj hf
    have hlt := List.idxOf_lt_length_of_mem (hnames p.name (by simp [symbols]))
    exact Denotes.ofPoly fun point => by rw [Poly.evalHom_indeterminate point hlt]; rfl
  | op o left right ihl ihr =>
    obtain ⟨a, b, ha, hb, hzero, rfl⟩ := fraction_op_eq_ok_iff.mp hf
    have hleft := ihl (fun name hname => hnames name (Names.mem_union.mpr (Or.inl hname))) ha
    have hright := ihr (fun name hname => hnames name (Names.mem_union.mpr (Or.inr hname))) hb
    exact hleft.op hright hzero

/-- The fraction of a term is reduced. -/
theorem fraction_reduced {t : Term} (hnames : ∀ name ∈ t.symbols, name ∈ names)
    {f : Fraction names.length} (hf : t.fraction names = .ok f) : f.Reduced := by
  cases t with
  | const n =>
    obtain rfl := Except.ok.inj hf
    exact Fraction.reduced_ofPoly _
  | sym name =>
    obtain rfl := Except.ok.inj hf
    exact Fraction.reduced_ofPoly _
  | hole p =>
    obtain rfl := Except.ok.inj hf
    exact Fraction.reduced_ofPoly _
  | op o left right =>
    obtain ⟨a, b, ha, hb, hzero, rfl⟩ := fraction_op_eq_ok_iff.mp hf
    have hleft := fraction_denotes (fun name h => hnames name (Names.mem_union.mpr (Or.inl h))) ha
    have hright := fraction_denotes (fun name h => hnames name (Names.mem_union.mpr (Or.inr h))) hb
    exact reduced_onFractions hleft.den_ne_zero hright.den_ne_zero hzero

/-- A term that has a value at a point has a fraction. -/
theorem exists_fraction_of_valueAt {t : Term} (hnames : ∀ name ∈ t.symbols, name ∈ names)
    {point : ℕ → ℚ} {x : ℚ} (hx : t.valueAt (atPoint names point) = some x) :
    ∃ f, t.fraction names = .ok f := by
  induction t generalizing x with
  | const n => exact ⟨_, rfl⟩
  | sym name => exact ⟨_, rfl⟩
  | hole p => exact ⟨_, rfl⟩
  | op o left right ihl ihr =>
    obtain ⟨y, z, hy, hz, hop⟩ := valueAt_op_eq_some_iff.mp hx
    have hright (name : String) (hname : name ∈ right.symbols) : name ∈ names :=
      hnames name (Names.mem_union.mpr (Or.inr hname))
    obtain ⟨a, ha⟩ := ihl (fun name hname => hnames name (Names.mem_union.mpr (Or.inl hname))) hy
    obtain ⟨b, hb⟩ := ihr hright hz
    refine ⟨_, fraction_op_eq_ok_iff.mpr ⟨a, b, ha, hb, fun ho => ?_, rfl⟩⟩
    have hb' := fraction_denotes hright hb
    have hne : z ≠ 0 := Operator.onNumbers_isSome_iff.mp (by rw [hop]; rfl) ho
    have hfield := (hb'.takesValue point z hz).ne_zero hne
    rwa [Ne, ← Fraction.isZero_eq_true_iff hb'.den_ne_zero, Bool.not_eq_true] at hfield

/-- The numbers that an instantiation gives to the names of a list, as a point. -/
def pointOf (names : List String) (ρ : Instantiation) : ℕ → ℚ :=
  fun i => (ρ (names[i]?.getD "")).getD 0

/-- A value at an instantiation is one at the point that the instantiation gives. -/
theorem valueAt_pointOf {t : Term} (hnames : ∀ name ∈ t.symbols, name ∈ names) {ρ : Instantiation}
    {x : ℚ} (hx : t.valueAt ρ = some x) :
    t.valueAt (atPoint names (pointOf names ρ)) = some x := by
  refine valueAt_mono (fun name hname y hy => ?_) hx
  have hlt := List.idxOf_lt_length_of_mem (hnames name hname)
  rw [atPoint, Instantiation.total, pointOf, List.getElem?_eq_getElem hlt, List.getElem_idxOf,
    Option.getD_some, hy, Option.getD_some]

/-- A term that has a value somewhere has a fraction over every list of names that holds its
symbols. -/
theorem exists_fraction_iff {t : Term} (hnames : ∀ name ∈ t.symbols, name ∈ names) :
    (∃ f, t.fraction names = .ok f) ↔ ∃ ρ x, t.valueAt ρ = some x := by
  constructor
  · rintro ⟨f, hf⟩
    obtain ⟨p, hp, hval⟩ := (fraction_denotes hnames hf).generic
    obtain ⟨point, hpoint⟩ := Poly.exists_evalHom_ne_zero hp
    obtain ⟨x, hx⟩ := hval point hpoint
    exact ⟨_, x, hx⟩
  · rintro ⟨ρ, x, hx⟩
    exact exists_fraction_of_valueAt hnames (valueAt_pointOf hnames hx)

/-- A term lowers if and only if it has a value somewhere. -/
theorem lowers_iff_exists_valueAt {t : Term} : t.Lowers ↔ ∃ ρ x, t.valueAt ρ = some x :=
  exists_fraction_iff fun _ h => h

/-- A term that has a value lowers. -/
theorem lowers_of_valueAt {t : Term} {ρ : Instantiation} {x : ℚ} (hx : t.valueAt ρ = some x) :
    t.Lowers :=
  lowers_iff_exists_valueAt.mpr ⟨ρ, x, hx⟩

/-- A term that lowers has a fraction over every list of names that holds its symbols. -/
theorem Lowers.exists_fraction {t : Term} (ht : t.Lowers)
    (hnames : ∀ name ∈ t.symbols, name ∈ names) : ∃ f, t.fraction names = .ok f :=
  (exists_fraction_iff hnames).mpr (lowers_iff_exists_valueAt.mp ht)

/-- Two terms agree if and only if their fractions represent one rational function. -/
theorem agrees_iff_toField_eq {a b : Term} (ha : ∀ name ∈ a.symbols, name ∈ names)
    (hb : ∀ name ∈ b.symbols, name ∈ names) {f g : Fraction names.length}
    (hf : a.fraction names = .ok f) (hg : b.fraction names = .ok g) :
    a.Agrees b ↔ f.toField = g.toField := by
  have hfd := fraction_denotes ha hf
  have hgd := fraction_denotes hb hg
  constructor
  · intro h
    by_contra hne
    obtain ⟨num, den, hden, hdiff⟩ :=
      IsFractionRing.div_surjective (A := Poly.Ring names.length) (f.toField - g.toField)
    have hden0 : den ≠ 0 := nonZeroDivisors.ne_zero hden
    have hnum : num ≠ 0 := by
      rintro rfl
      rw [map_zero, zero_div, eq_comm, sub_eq_zero] at hdiff
      exact hne hdiff
    obtain ⟨p, hp, hpval⟩ := hfd.generic
    obtain ⟨q, hq, hqval⟩ := hgd.generic
    obtain ⟨point, hpoint⟩ := Poly.exists_evalHom_ne_zero (mul_ne_zero (mul_ne_zero hp hq) hnum)
    rw [map_mul, map_mul, mul_ne_zero_iff, mul_ne_zero_iff] at hpoint
    obtain ⟨⟨hpoint_p, hpoint_q⟩, hpoint_num⟩ := hpoint
    obtain ⟨x, hx⟩ := hpval point hpoint_p
    obtain ⟨y, hy⟩ := hqval point hpoint_q
    have hsub := (hfd.takesValue point x hx).sub (hgd.takesValue point y hy)
    rw [← hdiff] at hsub
    exact TakesValue.ne_zero_of_num hden0 hpoint_num hsub (sub_eq_zero.mpr (h _ x y hx hy))
  · intro h ρ x y hx hy
    have hfx := hfd.takesValue _ x (valueAt_pointOf ha hx)
    have hgy := hgd.takesValue _ y (valueAt_pointOf hb hy)
    rw [h] at hfx
    exact hfx.unique hgy

/-- Agreement is transitive through a term that lowers. -/
theorem Agrees.trans {a b c : Term} (hab : a.Agrees b) (hb : b.Lowers) (hbc : b.Agrees c) :
    a.Agrees c := by
  intro ρ x y hx hy
  let names := a.symbols ++ b.symbols ++ c.symbols
  have hna (name : String) (h : name ∈ a.symbols) : name ∈ names := by simp [names, h]
  have hnb (name : String) (h : name ∈ b.symbols) : name ∈ names := by simp [names, h]
  have hnc (name : String) (h : name ∈ c.symbols) : name ∈ names := by simp [names, h]
  obtain ⟨f, hf⟩ := (lowers_of_valueAt hx).exists_fraction hna
  obtain ⟨g, hg⟩ := hb.exists_fraction hnb
  obtain ⟨k, hk⟩ := (lowers_of_valueAt hy).exists_fraction hnc
  have hfg := (agrees_iff_toField_eq hna hnb hf hg).mp hab
  have hgk := (agrees_iff_toField_eq hnb hnc hg hk).mp hbc
  exact (agrees_iff_toField_eq hna hnc hf hk).mpr (hfg.trans hgk) ρ x y hx hy

/-- A term vanishes if and only if its fraction is zero. -/
theorem vanishes_iff_isZero {t : Term} (hnames : ∀ name ∈ t.symbols, name ∈ names)
    {f : Fraction names.length} (hf : t.fraction names = .ok f) :
    t.Vanishes ↔ f.isZero = true := by
  have hzero : (const 0).fraction names = .ok (.ofInt _ 0) := rfl
  have hfield : (Fraction.ofInt names.length 0).toField = 0 := by
    rw [Fraction.toField, Fraction.ofInt, Poly.ofInt, embed_ofInt, Int.cast_zero, map_zero,
      zero_div]
  rw [vanishes_iff_agrees_zero, agrees_iff_toField_eq hnames (by simp [symbols]) hf hzero, hfield,
    Fraction.isZero_eq_true_iff (fraction_denotes hnames hf).den_ne_zero]

end Term

end Shapeline
