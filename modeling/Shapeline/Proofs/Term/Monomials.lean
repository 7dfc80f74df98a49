import Mathlib.Data.Finsupp.Lex
import Mathlib.Data.List.Sort
import Mathlib.Data.String.Basic
import Shapeline.Proofs.Algebra.Named
import Shapeline.Proofs.Outcome
import Shapeline.Term.Normal

/-!
# Polynomials written out

A polynomial over names is written as the list of its monomials, the leading one first. In a
monomial every name that occurs comes with its exponent, in ascending order, and no coefficient and
no exponent is zero. So written, different lists are different polynomials, whatever names they are
written over.
-/

namespace Shapeline

section Entries

variable {κ ν : Type} [DecidableEq κ] [AddCommMonoid ν] {entries others : List (κ × ν)} {key : κ}

/-- What the entries with a key add up to. -/
def total (entries : List (κ × ν)) (key : κ) : ν :=
  (entries.map fun entry => if entry.1 = key then entry.2 else 0).sum

/-- A key without entries has the total zero. -/
theorem total_eq_zero (h : ∀ entry ∈ entries, entry.1 ≠ key) : total entries key = 0 := by
  refine List.sum_eq_zero fun x hx => ?_
  obtain ⟨entry, hentry, rfl⟩ := List.mem_map.mp hx
  exact if_neg (h entry hentry)

/-- If keys do not repeat and no value is zero, the entries can be read off the totals. -/
theorem mem_iff_total {value : ν} (hkeys : entries.Pairwise (·.1 ≠ ·.1))
    (hvalues : ∀ entry ∈ entries, entry.2 ≠ 0) :
    (key, value) ∈ entries ↔ value ≠ 0 ∧ total entries key = value := by
  induction entries with
  | nil => simp [total, eq_comm]
  | cons entry rest ih =>
    obtain ⟨hfirst, hrest⟩ := List.pairwise_cons.mp hkeys
    obtain ⟨hvalue, hothers⟩ := List.forall_mem_cons.mp hvalues
    have htotal : total (entry :: rest) key =
        (if entry.1 = key then entry.2 else 0) + total rest key := List.sum_cons
    rw [List.mem_cons, ih hrest hothers, htotal]
    by_cases hkey : entry.1 = key
    · have hzero : total rest key = 0 :=
        total_eq_zero fun other hother heq => hfirst other hother (hkey.trans heq.symm)
      rw [if_pos hkey, hzero, add_zero]
      constructor
      · rintro (rfl | ⟨hne, rfl⟩)
        · exact ⟨hvalue, rfl⟩
        · exact absurd rfl hne
      · rintro ⟨_, rfl⟩
        exact Or.inl (Prod.ext hkey.symm rfl)
    · rw [if_neg hkey, zero_add, or_iff_right fun heq => hkey (congrArg Prod.fst heq).symm]

/-- Lists whose keys stand in strict order and whose values are not zero are equal if their totals
are. -/
theorem eq_of_total_eq {r : κ → κ → Prop} (hr : ∀ a b, r a b → ¬ r b a)
    (horder : entries.Pairwise fun a b => r a.1 b.1) (horder' : others.Pairwise fun a b => r a.1 b.1)
    (hvalues : ∀ entry ∈ entries, entry.2 ≠ 0) (hvalues' : ∀ entry ∈ others, entry.2 ≠ 0)
    (h : ∀ key, total entries key = total others key) : entries = others := by
  have hdistinct {a b : κ × ν} (hab : r a.1 b.1) : a.1 ≠ b.1 := by
    intro heq
    rw [heq] at hab
    exact hr _ _ hab hab
  have hirrefl : Std.Irrefl fun a b : κ × ν => r a.1 b.1 := ⟨fun a ha => hdistinct ha rfl⟩
  have hantisymm : Std.Antisymm fun a b : κ × ν => r a.1 b.1 :=
    ⟨fun a b hab hba => absurd hba (hr _ _ hab)⟩
  refine horder.eq_of_mem_iff horder' fun ⟨key, value⟩ => ?_
  rw [mem_iff_total (horder.imp hdistinct) hvalues, mem_iff_total (horder'.imp hdistinct) hvalues', h]

end Entries

namespace Term

open MvPolynomial

namespace NamedMonomial

variable {m m' : NamedMonomial} {name : String}

/-- The exponents of all names. -/
noncomputable def exponents (m : NamedMonomial) : String →₀ ℕ :=
  (m.powers.map fun (name, exponent) => Finsupp.single name exponent).sum

/-- The exponent of a name is what the powers of the name add up to. -/
theorem exponents_apply (name : String) : m.exponents name = total m.powers name := by
  change Finsupp.applyAddHom name m.exponents = _
  rw [exponents, map_list_sum, List.map_map]
  exact congrArg List.sum (List.map_congr_left fun _ _ => Finsupp.single_apply)

/-- The powers stand in ascending order of the names, and none has the exponent zero. -/
structure Tidy (m : NamedMonomial) : Prop where
  /-- The names ascend. -/
  ascending : m.powers.Pairwise (·.1 < ·.1)
  /-- The names occur. -/
  exponent_ne_zero : ∀ power ∈ m.powers, power.2 ≠ 0

/-- Tidy monomials with equal coefficients and exponents are equal. -/
theorem Tidy.ext (hm : m.Tidy) (hm' : m'.Tidy) (hcoefficient : m.coefficient = m'.coefficient)
    (hexponents : m.exponents = m'.exponents) : m = m' := by
  have hpowers : m.powers = m'.powers := by
    refine eq_of_total_eq (r := (· < ·)) (fun _ _ => lt_asymm) hm.ascending hm'.ascending
      hm.exponent_ne_zero hm'.exponent_ne_zero fun name => ?_
    rw [← exponents_apply, ← exponents_apply, hexponents]
  cases m
  cases m'
  exact congrArg₂ NamedMonomial.mk hcoefficient hpowers

/-- The polynomial that a monomial is. -/
noncomputable def toPolynomial (m : NamedMonomial) : MvPolynomial String ℤ :=
  monomial m.exponents m.coefficient

/-- The monomial times a power of a name. -/
def timesPower (name : String) (exponent : ℕ) (m : NamedMonomial) : NamedMonomial :=
  ⟨m.coefficient, if exponent = 0 then m.powers else (name, exponent) :: m.powers⟩

/-- The exponents of a product with a power. -/
theorem exponents_timesPower (exponent : ℕ) :
    (m.timesPower name exponent).exponents = Finsupp.single name exponent + m.exponents := by
  unfold timesPower exponents
  split
  · rename_i hzero
    rw [hzero, Finsupp.single_zero, zero_add]
  · rw [List.map_cons, List.sum_cons]

/-- The product with a power is that of polynomials. -/
theorem toPolynomial_timesPower (exponent : ℕ) :
    (m.timesPower name exponent).toPolynomial = X name ^ exponent * m.toPolynomial := by
  rw [toPolynomial, exponents_timesPower, X_pow_eq_monomial, toPolynomial, monomial_mul, one_mul]
  rfl

/-- The monomial with the opposite coefficient. -/
def opposite (m : NamedMonomial) : NamedMonomial := ⟨-m.coefficient, m.powers⟩

/-- One monomial comes before another one: the exponent of the first name in which they differ is
greater. -/
def Before (m m' : NamedMonomial) : Prop := toLex m'.exponents < toLex m.exponents

/-- A common power does not matter for the order. -/
theorem Before.timesPower (h : m.Before m') (exponent : ℕ) :
    (m.timesPower name exponent).Before (m'.timesPower name exponent) := by
  unfold Before
  rw [exponents_timesPower, exponents_timesPower, toLex_add, toLex_add]
  exact add_lt_add_right h _

/-- Of two monomials in later names, the one that gets the greater power comes before the other. -/
theorem before_timesPower {e e' : ℕ} (hlt : e' < e) (hm : ∀ other ≤ name, m.exponents other = 0)
    (hm' : ∀ other ≤ name, m'.exponents other = 0) :
    (m.timesPower name e).Before (m'.timesPower name e') := by
  refine Finsupp.Lex.lt_iff.mpr ⟨name, fun other hother => ?_, ?_⟩
  · change (m'.timesPower name e').exponents other = (m.timesPower name e).exponents other
    simp [exponents_timesPower, hm other hother.le, hm' other hother.le, hother.ne]
  · change (m'.timesPower name e').exponents name < (m.timesPower name e).exponents name
    simpa [exponents_timesPower, hm name le_rfl, hm' name le_rfl] using hlt

end NamedMonomial

/-- The polynomial that a list of monomials is. -/
noncomputable def polynomialOf (ms : List NamedMonomial) : MvPolynomial String ℤ :=
  (ms.map NamedMonomial.toPolynomial).sum

/-- A list of monomials is as a polynomial is written. -/
structure WrittenOut (ms : List NamedMonomial) : Prop where
  /-- The monomials stand in descending lexicographic order. -/
  descending : ms.Pairwise NamedMonomial.Before
  /-- No coefficient is zero. -/
  coefficient_ne_zero : ∀ m ∈ ms, m.coefficient ≠ 0
  /-- Every monomial is tidy. -/
  tidy : ∀ m ∈ ms, m.Tidy

/-- The coefficients of a polynomial are those of its monomials. -/
theorem coeff_polynomialOf (ms : List NamedMonomial) (s : String →₀ ℕ) :
    (polynomialOf ms).coeff s = total (ms.map fun m => (m.exponents, m.coefficient)) s := by
  change coeffAddMonoidHom s (polynomialOf ms) = _
  rw [polynomialOf, map_list_sum, total, List.map_map, List.map_map]
  exact congrArg List.sum (List.map_congr_left fun _ _ => coeff_monomial _ _ _)

/-- A list of opposites is the opposite polynomial. -/
theorem polynomialOf_map_opposite (ms : List NamedMonomial) :
    polynomialOf (ms.map NamedMonomial.opposite) = -polynomialOf ms := by
  have hopposite (m : NamedMonomial) : m.opposite.toPolynomial = -m.toPolynomial :=
    map_neg (monomial m.exponents) m.coefficient
  rw [polynomialOf, polynomialOf, List.map_map, List.sum_neg, List.map_map]
  exact congrArg List.sum (List.map_congr_left fun m _ => hopposite m)

/-- The opposite of a polynomial is written out with opposite coefficients. -/
theorem WrittenOut.map_opposite {ms : List NamedMonomial} (h : WrittenOut ms) :
    WrittenOut (ms.map NamedMonomial.opposite) where
  descending := List.pairwise_map.mpr h.descending
  coefficient_ne_zero := List.forall_mem_map.mpr fun m hm =>
    neg_ne_zero.mpr (h.coefficient_ne_zero m hm)
  tidy := List.forall_mem_map.mpr fun m hm => ⟨(h.tidy m hm).1, (h.tidy m hm).2⟩

/-- Polynomials written out are equal only if they are written alike. -/
theorem WrittenOut.eq_of_polynomialOf_eq {ms ms' : List NamedMonomial} (h : WrittenOut ms)
    (h' : WrittenOut ms') (heq : polynomialOf ms = polynomialOf ms') : ms = ms' := by
  have hvalues {l : List NamedMonomial} (hl : WrittenOut l) :
      ∀ entry ∈ l.map fun m => (m.exponents, m.coefficient), entry.2 ≠ 0 :=
    List.forall_mem_map.mpr hl.coefficient_ne_zero
  have hentries : ms.map (fun m => (m.exponents, m.coefficient)) =
      ms'.map fun m => (m.exponents, m.coefficient) := by
    refine eq_of_total_eq (r := fun s s' => toLex s' < toLex s) (fun _ _ => lt_asymm)
      (List.pairwise_map.mpr h.descending) (List.pairwise_map.mpr h'.descending)
      (hvalues h) (hvalues h') fun s => ?_
    rw [← coeff_polynomialOf, ← coeff_polynomialOf, heq]
  rw [← List.forall₂_eq_eq_eq, List.forall₂_map_left_iff, List.forall₂_map_right_iff] at hentries
  rw [← List.forall₂_eq_eq_eq]
  exact forall₂_imp_of_mem hentries h.tidy h'.tidy fun m m' hentry hm hm' =>
    hm.ext hm' (congrArg Prod.snd hentry) (congrArg Prod.fst hentry)

open LawfulGcdRing

variable {name : String} {names : List String}

/-- An integer other than zero is its own monomial. -/
theorem namedMonomials_nil (a : ℤ) :
    namedMonomials [] a = if a = 0 then [] else [⟨a, []⟩] := by
  change (if a = 0 then [] else [⟨a, []⟩] : List Poly.Monomial).map _ = _
  split <;> rfl

/-- The monomials of a polynomial in several variables are those of its coefficients, each times a
power of the first variable, from the highest power downward. -/
theorem namedMonomials_cons (p : Poly (name :: names).length) :
    namedMonomials (name :: names) p =
      (Poly.toDense p).coeffs.zipIdx.reverse.flatMap fun entry =>
        (namedMonomials names entry.1).map (NamedMonomial.timesPower name entry.2) := by
  unfold namedMonomials
  change (Poly.monomials (names.length + 1) p).map _ = _
  rw [Poly.monomials, List.map_flatMap]
  refine List.flatMap_congr fun ⟨c, exponent⟩ _ => ?_
  dsimp only
  rw [List.map_map, List.map_map]
  refine List.map_congr_left fun m _ => ?_
  simp only [Function.comp_apply, NamedMonomial.timesPower, List.zip_cons_cons, List.filter_cons]
  by_cases hzero : exponent = 0 <;> simp [hzero]

/-- Lists of monomials are added one after another. -/
theorem polynomialOf_flatMap {α : Type} (f : α → List NamedMonomial) (items : List α) :
    polynomialOf (items.flatMap f) = (items.map fun item => polynomialOf (f item)).sum := by
  induction items with
  | nil => rfl
  | cons item rest ih =>
    rw [List.flatMap_cons, List.map_cons, List.sum_cons, ← ih]
    unfold polynomialOf
    rw [List.map_append, List.sum_append]

/-- A common power can be taken out. -/
theorem polynomialOf_map_timesPower (exponent : ℕ) (ms : List NamedMonomial) :
    polynomialOf (ms.map (NamedMonomial.timesPower name exponent)) =
      X name ^ exponent * polynomialOf ms := by
  unfold polynomialOf
  rw [List.map_map, ← List.sum_map_mul_left]
  exact congrArg List.sum (List.map_congr_left fun m _ => m.toPolynomial_timesPower exponent)

/-- The coefficients of a polynomial, times the powers of its variable, add up to the polynomial. -/
theorem sum_zipIdx (coeffs : List (Poly names.length)) (start : ℕ) :
    ((coeffs.zipIdx start).map fun entry =>
        X name ^ entry.2 * Poly.named names (embed entry.1)).sum =
      X name ^ start * Polynomial.eval₂ (Poly.named names) (X name) (ofCoeffs coeffs) := by
  induction coeffs generalizing start with
  | nil => simp [ofCoeffs]
  | cons c rest ih =>
    rw [List.zipIdx_cons, List.map_cons, List.sum_cons, ih, ofCoeffs, Polynomial.eval₂_add,
      Polynomial.eval₂_mul, Polynomial.eval₂_C, Polynomial.eval₂_X]
    ring

/-- The monomials add up to the polynomial. -/
theorem polynomialOf_namedMonomials (p : Poly names.length) :
    polynomialOf (namedMonomials names p) = Poly.named names (embed p) := by
  induction names with
  | nil =>
    change ℤ at p
    change _ = ((p : ℤ) : MvPolynomial String ℤ)
    rw [namedMonomials_nil]
    by_cases hzero : p = 0
    · simp [hzero, polynomialOf]
    · simp [hzero, polynomialOf, NamedMonomial.toPolynomial, NamedMonomial.exponents]
  | cons name rest ih =>
    rw [namedMonomials_cons, polynomialOf_flatMap, List.map_reverse, List.sum_reverse]
    simp only [polynomialOf_map_timesPower, ih]
    rw [sum_zipIdx, pow_zero, one_mul]
    rfl

/-- Only the given names occur in the monomials. -/
theorem mem_of_namedMonomials {p : Poly names.length} {m : NamedMonomial}
    (hm : m ∈ namedMonomials names p) {power : String × ℕ} (hpower : power ∈ m.powers) :
    power.1 ∈ names := by
  obtain ⟨m, _, rfl⟩ := List.mem_map.mp hm
  exact (List.of_mem_zip (List.mem_of_mem_filter hpower)).1

/-- Names that are not given do not occur in the monomials. -/
theorem exponents_of_namedMonomials {p : Poly names.length} {m : NamedMonomial}
    (hm : m ∈ namedMonomials names p) {other : String} (hother : other ∉ names) :
    m.exponents other = 0 := by
  rw [NamedMonomial.exponents_apply]
  exact total_eq_zero fun power hpower heq => hother (heq ▸ mem_of_namedMonomials hm hpower)

/-- A power of an earlier name leaves a monomial tidy. -/
theorem NamedMonomial.Tidy.timesPower {m : NamedMonomial} (hm : m.Tidy) (exponent : ℕ)
    (hname : ∀ power ∈ m.powers, name < power.1) : (m.timesPower name exponent).Tidy := by
  unfold NamedMonomial.timesPower
  by_cases hzero : exponent = 0
  · rw [if_pos hzero]
    exact ⟨hm.ascending, hm.exponent_ne_zero⟩
  · rw [if_neg hzero]
    exact ⟨List.pairwise_cons.mpr ⟨hname, hm.ascending⟩,
      List.forall_mem_cons.mpr ⟨hzero, hm.exponent_ne_zero⟩⟩

/-- The exponents at which the coefficients of a polynomial stand ascend. -/
theorem pairwise_zipIdx {α : Type} (items : List α) (start : ℕ) :
    (items.zipIdx start).Pairwise fun a b => a.2 < b.2 := by
  induction items generalizing start with
  | nil => exact List.Pairwise.nil
  | cons item rest ih =>
    rw [List.zipIdx_cons]
    exact List.pairwise_cons.mpr ⟨fun later hlater => List.le_snd_of_mem_zipIdx hlater, ih _⟩

/-- The monomials over ascending names are written out. -/
theorem writtenOut_namedMonomials (hnames : names.Pairwise (· < ·)) (p : Poly names.length) :
    WrittenOut (namedMonomials names p) := by
  induction names with
  | nil =>
    change ℤ at p
    rw [namedMonomials_nil]
    by_cases hzero : p = 0
    · rw [if_pos hzero]
      exact ⟨List.Pairwise.nil, by simp, by simp⟩
    · rw [if_neg hzero]
      exact ⟨by simp, by simpa using hzero, List.forall_mem_singleton.mpr ⟨by simp, by simp⟩⟩
  | cons name rest ih =>
    obtain ⟨hfirst, hrest⟩ := List.pairwise_cons.mp hnames
    have hlater {c : Poly rest.length} {m : NamedMonomial} (hm : m ∈ namedMonomials rest c) :
        ∀ other ≤ name, m.exponents other = 0 := fun other hother =>
      exponents_of_namedMonomials hm fun hmem => (hfirst other hmem).not_ge hother
    rw [namedMonomials_cons]
    refine ⟨List.pairwise_flatMap.mpr ⟨fun ⟨c, e⟩ _ => ?_, ?_⟩, ?_, ?_⟩
    · exact List.pairwise_map.mpr ((ih hrest c).descending.imp fun h => h.timesPower e)
    · refine List.pairwise_reverse.mpr ((pairwise_zipIdx _ 0).imp ?_)
      rintro ⟨c', e'⟩ ⟨c, e⟩ hlt _ hproduct _ hproduct'
      obtain ⟨m, hm, rfl⟩ := List.mem_map.mp hproduct
      obtain ⟨m', hm', rfl⟩ := List.mem_map.mp hproduct'
      exact NamedMonomial.before_timesPower hlt (hlater hm) (hlater hm')
    · intro _ hmem
      obtain ⟨⟨c, e⟩, _, hproduct⟩ := List.mem_flatMap.mp hmem
      obtain ⟨m, hm, rfl⟩ := List.mem_map.mp hproduct
      exact (ih hrest c).coefficient_ne_zero m hm
    · intro _ hmem
      obtain ⟨⟨c, e⟩, _, hproduct⟩ := List.mem_flatMap.mp hmem
      obtain ⟨m, hm, rfl⟩ := List.mem_map.mp hproduct
      exact ((ih hrest c).tidy m hm).timesPower e fun power hpower =>
        hfirst _ (mem_of_namedMonomials hm hpower)

/-- A polynomial other than zero has a leading monomial, whose sign is that of the polynomial. -/
theorem exists_head_namedMonomials {p : Poly names.length} (hp : p ≠ 0) :
    ∃ m, (namedMonomials names p).head? = some m ∧
      (m.coefficient < 0 ↔ GcdRing.isNegative p = true) := by
  induction names with
  | nil =>
    change ℤ at p
    have hne : p ≠ 0 := hp
    rw [namedMonomials_nil, if_neg hne]
    exact ⟨_, rfl, (decide_eq_true_iff (p := p < 0)).symm⟩
  | cons name rest ih =>
    have hlead : (Poly.toDense p).lead ≠ 0 := Dense.lead_ne_zero hp
    obtain ⟨m, hm, hsign⟩ := ih hlead
    obtain ⟨lower, hcoeffs⟩ : ∃ lower, (Poly.toDense p).coeffs = lower ++ [(Poly.toDense p).lead] := by
      rcases List.eq_nil_or_concat' (Poly.toDense p).coeffs with hnil | ⟨lower, last, hlast⟩
      · exact absurd (by rw [Dense.lead, hnil]; rfl) hlead
      · refine ⟨lower, ?_⟩
        rw [Dense.lead, hlast, List.getLastD_concat]
    refine ⟨m.timesPower name lower.length, ?_, hsign⟩
    rw [namedMonomials_cons, hcoeffs, List.zipIdx_append, List.reverse_append, List.zipIdx_singleton,
      List.reverse_singleton, List.singleton_append, List.flatMap_cons, List.head?_append,
      List.head?_map, hm]
    simp

end Term

end Shapeline
