import Shapeline.Proofs.Rule.Correspondence

/-!
# Reworded terms

An author can state an extent in different ways that are the same under the values of the model's
variables. Two terms are reworded if they are built alike from such extents, from equal terms and
from equal placeholders. Simplification decides by constants only, so it takes reworded terms to
reworded terms as long as extents that are stated differently are constant together. Filling
placeholders with reworded terms does so too, because no divisor mentions a placeholder.
-/

namespace Shapeline.Term

variable {σ π π' : Substitution} {known : String → Prop} {a b t u l r l' r' : Term}
  {o : Operator} {p : Placeholder} {name : String}

/-- Two terms of the author state one extent: they mention known symbols only, they have values under
the values of the variables and are the same, and they are simplified to an integer together. -/
structure Restates (σ : Substitution) (known : String → Prop) (a b : Term) : Prop where
  /-- The first term can be written. -/
  left : a.Written
  /-- The second term can be written. -/
  right : b.Written
  /-- The symbols of the first term are known. -/
  knownLeft : ∀ name ∈ a.symbols, known name
  /-- The symbols of the second term are known. -/
  knownRight : ∀ name ∈ b.symbols, known name
  /-- The first term has a value. -/
  defined : a.DefinedUnder σ
  /-- The terms are the same. -/
  same : SameUnder σ a b
  /-- The terms are simplified to an integer together. -/
  constant : ∀ n, a.simplify = .ok (const n) ↔ b.simplify = .ok (const n)

/-- Which of two terms is the first does not matter. -/
theorem Restates.symm (h : Restates σ known a b) : Restates σ known b a where
  left := h.right
  right := h.left
  knownLeft := h.knownRight
  knownRight := h.knownLeft
  defined := h.same.defined.mp h.defined
  same := h.same.symm
  constant n := (h.constant n).symm

/-- The integer that a term is as written tells whether it is an integer. -/
theorem const?_eq_of_iff (h : ∀ n, a = const n ↔ b = const n) : a.const? = b.const? := by
  apply Option.ext
  intro n
  rw [const?_eq_some_iff, const?_eq_some_iff, h n]

/-- The simplified terms state the extent too, and are integers together. -/
theorem Restates.simplify (h : Restates σ known a b) :
    ∃ a' b', a.simplify = .ok a' ∧ b.simplify = .ok b' ∧ Restates σ known a' b' ∧
      a'.const? = b'.const? := by
  obtain ⟨a', ha', -⟩ := h.left.lowers.simplify
  obtain ⟨b', hb', -⟩ := h.right.lowers.simplify
  have hconstant (n : Int) : a' = const n ↔ b' = const n := by
    have hiff := h.constant n
    rwa [ha', hb', Except.ok.injEq, Except.ok.injEq] at hiff
  have hsamea := SameUnder.simplify h.defined ha'
  have hsameb := SameUnder.simplify h.symm.defined hb'
  refine ⟨a', b', ha', hb', ⟨h.left.simplify ha', h.right.simplify hb',
    fun name hname => h.knownLeft name (mem_symbols_of_simplify ha' hname),
    fun name hname => h.knownRight name (mem_symbols_of_simplify hb' hname),
    h.defined.simplify ha', (hsamea.trans h.same).trans hsameb.symm, fun n => ?_⟩,
    const?_eq_of_iff hconstant⟩
  rw [simplify_simplify ha', simplify_simplify hb', Except.ok.injEq, Except.ok.injEq, hconstant]

/-- What combining leaves of operands that are the given integers or none: zero, one of the operands,
or the operator applied to them. -/
inductive Leaves (o : Operator) (m n : Option Int) : Prop
  /-- The result is zero. -/
  | zero : (∀ l r, l.const? = m → r.const? = n → combine o l r = pure (const 0)) → Leaves o m n
  /-- The first operand is left. -/
  | left : (∀ l r, l.const? = m → r.const? = n → combine o l r = pure l) → Leaves o m n
  /-- The second operand is left. -/
  | right : (∀ l r, l.const? = m → r.const? = n → combine o l r = pure r) → Leaves o m n
  /-- The operator is applied. -/
  | both : (∀ l r, l.const? = m → r.const? = n → combine o l r = apply o l r) → Leaves o m n

/-- What combining leaves of a term that is no integer and an operand depends on the operand being
zero or one only. -/
theorem leaves_of_left {n : Option Int} : Leaves o none n := by
  by_cases h0 : n = some 0
  · subst h0
    cases o with
    | add | sub => exact .left fun l r hl hr => by simp [combine, hl, hr]
    | mul => exact .zero fun l r hl hr => by simp [combine, hl, hr]
    | div => exact .both fun l r hl hr => by simp [combine, hl, hr, apply]
  by_cases h1 : n = some 1
  · subst h1
    cases o with
    | add | sub => exact .both fun l r hl hr => by simp [combine, hl, hr, apply]
    | mul | div => exact .left fun l r hl hr => by simp [combine, hl, hr]
  exact .both fun l r hl hr => by cases o <;> simp [combine, hl, hr, h0, h1, apply]

/-- What combining leaves of an operand and a term that is no integer depends on the operand being
zero or one only. -/
theorem leaves_of_right {m : Option Int} : Leaves o m none := by
  by_cases h0 : m = some 0
  · subst h0
    cases o with
    | add => exact .right fun l r hl hr => by simp [combine, hl, hr]
    | mul => exact .zero fun l r hl hr => by simp [combine, hl, hr]
    | sub | div => exact .both fun l r hl hr => by simp [combine, hl, hr, apply]
  by_cases h1 : m = some 1
  · subst h1
    cases o with
    | mul => exact .right fun l r hl hr => by simp [combine, hl, hr]
    | add | sub | div => exact .both fun l r hl hr => by simp [combine, hl, hr, apply]
  exact .both fun l r hl hr => by cases o <;> simp [combine, hl, hr, h0, h1, apply]

/-- Combining two integers yields a term that an author can write, unless it divides by zero. -/
theorem written_of_combine_const {m n : Int} (hdiv : o = .div → ¬ (const n).Vanishes) :
    ∃ u, combine o (const m) (const n) = .ok u ∧ u.Written := by
  have hwritten : (Term.op o (const m) (const n)).Written :=
    ⟨⟨trivial, trivial⟩, lowers_op_iff.mpr ⟨⟨_, rfl⟩, ⟨_, rfl⟩, hdiv⟩⟩
  obtain ⟨u, hu, -⟩ := hwritten.lowers.simplify
  exact ⟨u, hu, hwritten.simplify hu⟩

/-- A term is reworded: it is built alike from equal placeholders, from equal terms of the author
and from terms of the author that state one extent. Divisors stay as they are. -/
inductive Rewords (σ : Substitution) (known : String → Prop) : Term → Term → Prop
  /-- A placeholder stays. -/
  | hole {p : Placeholder} : Marked p.name → Rewords σ known (hole p) (hole p)
  /-- A term of the author stays. -/
  | same {t : Term} : t.Written → Rewords σ known t t
  /-- A term of the author is stated differently. -/
  | restated {a b : Term} : Restates σ known a b → Rewords σ known a b
  /-- The operands are reworded. -/
  | op {o : Operator} {l l' r r' : Term} : Rewords σ known l l' → Rewords σ known r r' →
    (o = .div → r = r' ∧ r.Written ∧ ¬ r.Vanishes) → Rewords σ known (op o l r) (op o l' r')

namespace Rewords

/-- Reworded terms lower. -/
theorem lowers (h : Rewords σ known a b) : a.Lowers ∧ b.Lowers := by
  induction h with
  | hole _ => exact ⟨⟨_, rfl⟩, ⟨_, rfl⟩⟩
  | same ht => exact ⟨ht.lowers, ht.lowers⟩
  | restated h => exact ⟨h.left.lowers, h.right.lowers⟩
  | op _ _ hdiv ihl ihr =>
    refine ⟨lowers_op_iff.mpr ⟨ihl.1, ihr.1, fun ho => (hdiv ho).2.2⟩,
      lowers_op_iff.mpr ⟨ihl.2, ihr.2, fun ho => ?_⟩⟩
    obtain ⟨rfl, -, hvanishes⟩ := hdiv ho
    exact hvanishes

/-- Reworded terms are the same under the values of the variables. -/
theorem sameUnder (h : Rewords σ known a b) : SameUnder σ a b := by
  induction h with
  | hole _ => exact .refl _
  | same _ => exact .refl _
  | restated h => exact h.same
  | op _ _ _ ihl ihr => exact ihl.op ihr

/-- If one of two reworded terms is a placeholder, they are the same one. -/
theorem eq_hole (h : Rewords σ known a b) : a = Term.hole p ↔ b = Term.hole p := by
  cases h with
  | hole _ => rfl
  | same _ => rfl
  | restated h =>
    have hleft := h.left.authored
    have hright := h.right.authored
    constructor
    · rintro rfl
      exact hleft.elim
    · rintro rfl
      exact hright.elim
  | op _ _ _ => exact iff_of_false nofun nofun

/-- The symbols of a reworded term are symbols of the term or known. -/
theorem symbols (h : Rewords σ known a b) (hname : name ∈ b.symbols) :
    name ∈ a.symbols ∨ known name := by
  induction h with
  | hole _ => exact Or.inl hname
  | same _ => exact Or.inl hname
  | restated h => exact Or.inr (h.knownRight name hname)
  | op _ _ _ ihl ihr =>
    rcases Names.mem_union.mp hname with hmem | hmem
    · exact (ihl hmem).imp_left fun h => Names.mem_union.mpr (Or.inl h)
    · exact (ihr hmem).imp_left fun h => Names.mem_union.mpr (Or.inr h)

/-- Combining reworded operands that are integers together yields reworded terms that are so too. -/
theorem combine (hl : Rewords σ known l l') (hr : Rewords σ known r r')
    (hlc : l.const? = l'.const?) (hrc : r.const? = r'.const?)
    (hdiv : o = .div → r = r' ∧ r.Written ∧ ¬ r.Vanishes) :
    ∃ u u', Term.combine o l r = .ok u ∧ Term.combine o l' r' = .ok u' ∧ Rewords σ known u u' ∧
      u.const? = u'.const? := by
  have hmixed (h : Leaves o l.const? r.const?) : ∃ u u', Term.combine o l r = .ok u ∧
      Term.combine o l' r' = .ok u' ∧ Rewords σ known u u' ∧ u.const? = u'.const? := by
    cases h with
    | zero h => exact ⟨_, _, h l r rfl rfl, h l' r' hlc.symm hrc.symm, .same (.const 0), rfl⟩
    | left h => exact ⟨_, _, h l r rfl rfl, h l' r' hlc.symm hrc.symm, hl, hlc⟩
    | right h => exact ⟨_, _, h l r rfl rfl, h l' r' hlc.symm hrc.symm, hr, hrc⟩
    | both h =>
      rw [h l r rfl rfl, h l' r' hlc.symm hrc.symm]
      refine ⟨_, _, apply_eq_ok_iff.mpr ⟨fun ho => ?_, rfl⟩,
        apply_eq_ok_iff.mpr ⟨fun ho => ?_, rfl⟩, .op hl hr hdiv, rfl⟩
      · exact ⟨(hdiv ho).2.1.lowers, (hdiv ho).2.2⟩
      · obtain ⟨rfl, hwritten, hvanishes⟩ := hdiv ho
        exact ⟨hwritten.lowers, hvanishes⟩
  cases hm : l.const? with
  | none => exact hmixed (hm ▸ leaves_of_left)
  | some m =>
    cases hn : r.const? with
    | none => exact hmixed (hn ▸ leaves_of_right)
    | some n =>
      obtain rfl := const?_eq_some_iff.mp hm
      obtain rfl := const?_eq_some_iff.mp hn
      obtain rfl := const?_eq_some_iff.mp (hlc.symm.trans hm)
      obtain rfl := const?_eq_some_iff.mp (hrc.symm.trans hn)
      obtain ⟨u, hu, hwritten⟩ := written_of_combine_const (m := m) fun ho => (hdiv ho).2.2
      exact ⟨u, u, hu, hu, .same hwritten, rfl⟩

/-- Reworded terms are simplified to reworded terms that are integers together. -/
theorem simplify (h : Rewords σ known a b) :
    ∃ a' b', a.simplify = .ok a' ∧ b.simplify = .ok b' ∧ Rewords σ known a' b' ∧
      a'.const? = b'.const? := by
  induction h with
  | hole hp => exact ⟨_, _, rfl, rfl, .hole hp, rfl⟩
  | same ht =>
    obtain ⟨u, hu, -⟩ := ht.lowers.simplify
    exact ⟨u, u, hu, hu, .same (ht.simplify hu), rfl⟩
  | restated h =>
    obtain ⟨a', b', ha', hb', hrestates, hconst⟩ := h.simplify
    exact ⟨a', b', ha', hb', .restated hrestates, hconst⟩
  | @op o l l' r r' _ hr hdiv ihl ihr =>
    obtain ⟨l₁, l₂, hl₁, hl₂, hl, hlc⟩ := ihl
    obtain ⟨r₁, r₂, hr₁, hr₂, hr, hrc⟩ := ihr
    obtain ⟨u, u', hu, hu', hrewords, hconst⟩ := hl.combine hr hlc hrc fun ho => by
      obtain ⟨rfl, hwritten, hvanishes⟩ := hdiv ho
      obtain rfl := Except.ok.inj (hr₁.symm.trans hr₂)
      refine ⟨rfl, hwritten.simplify hr₁, fun hzero => hvanishes fun ρ x hx => ?_⟩
      obtain ⟨s, hs, hvalue⟩ := simplify_valueAt hx
      obtain rfl := Except.ok.inj (hr₁.symm.trans hs)
      exact hzero ρ x hvalue
    exact ⟨u, u', bind_eq_ok_iff.mpr ⟨l₁, hl₁, bind_eq_ok_iff.mpr ⟨r₁, hr₁, hu⟩⟩,
      bind_eq_ok_iff.mpr ⟨l₂, hl₂, bind_eq_ok_iff.mpr ⟨r₂, hr₂, hu'⟩⟩, hrewords, hconst⟩

/-- A placeholder that is reworded has the name of one. -/
theorem marked (h : Rewords σ known (Term.hole p) b) : Marked p.name := by
  cases h with
  | hole hp => exact hp
  | same ht => exact ht.authored.elim
  | restated h => exact h.left.authored.elim

/-- Two substitutions replace the same placeholders, by reworded terms. -/
structure Fill (σ : Substitution) (known : String → Prop) (π π' : Substitution) : Prop where
  /-- Placeholders are replaced only. -/
  marked : ∀ name, (π name).isSome → Marked name
  /-- Both substitutions leave a name, or replace it by reworded terms. -/
  alike : ∀ name, (π name = none ∧ π' name = none) ∨
    ∃ d d', π name = some (.ok d) ∧ π' name = some (.ok d') ∧ Rewords σ known d d'

/-- The other substitution replaces placeholders only, too. -/
theorem Fill.marked' (hπ : Fill σ known π π') (name : String) (h : (π' name).isSome) :
    Marked name := by
  rcases hπ.alike name with ⟨-, hnone⟩ | ⟨d, d', hd, -, -⟩
  · rw [hnone] at h
    cases h
  · exact hπ.marked name (by rw [hd]; rfl)

/-- Replacing placeholders by reworded terms takes reworded terms to reworded terms. -/
theorem substitute (hπ : Fill σ known π π') (h : Rewords σ known a b) :
    ∃ a' b', a.substitute π = .ok a' ∧ b.substitute π' = .ok b' ∧ Rewords σ known a' b' := by
  induction h with
  | @hole p hp =>
    rcases hπ.alike p.name with ⟨hnone, hnone'⟩ | ⟨d, d', hd, hd', hrewords⟩
    · exact ⟨_, _, getD_eq_ok_iff.mpr (Or.inr ⟨hnone, rfl⟩),
        getD_eq_ok_iff.mpr (Or.inr ⟨hnone', rfl⟩), .hole hp⟩
    · exact ⟨d, d', getD_eq_ok_iff.mpr (Or.inl hd), getD_eq_ok_iff.mpr (Or.inl hd'), hrewords⟩
  | @same t ht =>
    exact ⟨t, t, ht.authored.substitute_eq_self hπ.marked,
      ht.authored.substitute_eq_self hπ.marked', .same ht⟩
  | @restated a b h =>
    exact ⟨a, b, h.left.authored.substitute_eq_self hπ.marked,
      h.right.authored.substitute_eq_self hπ.marked', .restated h⟩
  | @op o l l' r r' _ _ hdiv ihl ihr =>
    obtain ⟨l₁, l₂, hl₁, hl₂, hl⟩ := ihl
    obtain ⟨r₁, r₂, hr₁, hr₂, hr⟩ := ihr
    have hdivisor (ho : o = .div) : r₁ = r ∧ r₂ = r' := by
      obtain ⟨rfl, hwritten, -⟩ := hdiv ho
      exact ⟨Except.ok.inj (hr₁.symm.trans (hwritten.authored.substitute_eq_self hπ.marked)),
        Except.ok.inj (hr₂.symm.trans (hwritten.authored.substitute_eq_self hπ.marked'))⟩
    have hdiv' (ho : o = .div) : r₁ = r₂ ∧ r₁.Written ∧ ¬ r₁.Vanishes := by
      obtain ⟨rfl, rfl⟩ := hdivisor ho
      exact hdiv ho
    refine ⟨_, _, substitute_op hl₁ hr₁ fun ho => ?_, substitute_op hl₂ hr₂ fun ho => ?_,
      .op hl hr hdiv'⟩
    · exact ⟨(hdiv' ho).2.1.lowers, (hdiv' ho).2.2⟩
    · obtain ⟨heq, hwritten, hvanishes⟩ := hdiv' ho
      exact heq ▸ ⟨hwritten.lowers, hvanishes⟩

end Rewords

/-- Rules keep rewording. -/
theorem ruleRelation_rewords (σ : Substitution) (known : String → Prop) :
    RuleRelation σ Term.Written (Rewords σ known) where
  author _ ht := ht.lowers
  integer n := .const n
  lowers _ _ h := h.lowers
  same _ _ h := h.sameUnder
  one := .same (.const 1)
  product _ _ _ _ hab hcd := .op hab hcd nofun
  quotient _ hstep _ hvanishes _ _ hab := .op hab (.same hstep) fun _ =>
    ⟨rfl, hstep, fun hzero => hvanishes fun _ y hy => hzero _ y hy⟩
  simplify _ _ h := by
    obtain ⟨a', b', ha', hb', hrewords, -⟩ := h.simplify
    exact ⟨a', b', ha', hb', hrewords⟩

end Shapeline.Term
