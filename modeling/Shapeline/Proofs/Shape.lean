import Mathlib.Data.List.TakeDrop
import Shapeline.Inference
import Shapeline.Proofs.Term.Authored

/-!
# Comparing shapes

The comparison of two shapes finds the first axis at which they differ, if there is one. Shapes that
are found to be the same agree under the substitution that the comparison makes. Binding the
placeholders of a shape against a declared shape replaces marked names by declared extents.
-/

namespace Shapeline

variable {σ π : Substitution}

namespace Term

/-- Two terms are found to be equivalent, or not to be, after a substitution. -/
def ComparesAs (σ : Substitution) (same : Bool) (a b : Term) : Prop :=
  ∃ a' b', a.substitute σ = .ok a' ∧ b.substitute σ = .ok b' ∧ a'.equivalent b' = .ok same

/-- Terms that are found to be equivalent after a substitution agree under it. -/
theorem ComparesAs.agreesUnder {a b : Term} (h : ComparesAs σ true a b) : AgreesUnder σ a b := by
  obtain ⟨a', b', ha, hb, hequiv⟩ := h
  exact (agreesUnder_iff ha hb).mpr (agrees_of_equivalent hequiv)

/-- Which of two terms that are found to be equivalent is the first does not matter. -/
theorem ComparesAs.symm {a b : Term} (h : ComparesAs σ true a b) : ComparesAs σ true b a := by
  obtain ⟨a', b', ha, hb, heq⟩ := h
  exact ⟨b', a', hb, ha, equivalent_symm heq⟩

end Term

namespace Shape

variable {s t u a b c a' b' : Shape}

/-- The names of the symbols of a shape are those of its axes. -/
theorem mem_symbols {name : String} :
    name ∈ s.symbols ↔ ∃ axis ∈ s.axes, name ∈ axis.symbols := by
  unfold symbols
  induction s.axes with
  | nil => simp
  | cons axis rest ih => simp [Names.mem_union, ih]

/-- A substitution in a shape is one in every axis. -/
theorem substitute_eq_ok_iff :
    s.substitute σ = .ok t ↔ List.Forall₂ (fun x y => x.substitute σ = .ok y) s.axes t.axes := by
  rw [substitute, bind_eq_ok_iff]
  simp only [mapM_eq_ok_iff, pure_eq_ok_iff]
  exact ⟨fun ⟨_, h, ht⟩ => ht ▸ h, fun h => ⟨_, h, rfl⟩⟩

/-- Simplifying a shape simplifies every axis. -/
theorem simplify_eq_ok_iff :
    s.simplify = .ok t ↔ List.Forall₂ (fun x y => x.simplify = .ok y) s.axes t.axes := by
  rw [simplify, bind_eq_ok_iff]
  simp only [mapM_eq_ok_iff, pure_eq_ok_iff]
  exact ⟨fun ⟨_, h, ht⟩ => ht ▸ h, fun h => ⟨_, h, rfl⟩⟩

/-- The values of all axes, if every axis has one. -/
def values (value : Term → Option ℚ) (s : Shape) : Option (List ℚ) := s.axes.mapM value

/-- The values of a shape are those of its axes. -/
theorem values_eq_some_iff {value : Term → Option ℚ} {xs : List ℚ} :
    s.values value = some xs ↔ List.Forall₂ (fun x y => value x = some y) s.axes xs :=
  mapM_eq_some_iff

/-- Two shapes have the same number of axes, and these agree under a substitution. -/
def AgreesUnder (σ : Substitution) (a b : Shape) : Prop :=
  List.Forall₂ (Term.AgreesUnder σ) a.axes b.axes

/-- A shape agrees with itself. -/
theorem AgreesUnder.refl (σ : Substitution) (s : Shape) : AgreesUnder σ s s :=
  List.forall₂_same.mpr fun x _ => Term.AgreesUnder.refl σ x

/-- Agreement survives the substitution of unknown symbols. -/
theorem AgreesUnder.substitute (h : AgreesUnder σ a b) (hπ : π.Apart σ)
    (ha : a.substitute π = .ok a') (hb : b.substitute π = .ok b') : AgreesUnder σ a' b' :=
  forall₂_transport (fun _ _ _ _ h ha hb => h.substitute hπ ha hb) h
    (substitute_eq_ok_iff.mp ha) (substitute_eq_ok_iff.mp hb)

/-- Agreement is transitive through a shape whose axes lower after the substitution. -/
theorem AgreesUnder.trans (hab : AgreesUnder σ a b) (hb : b.substitute σ = .ok b')
    (hlow : ∀ x ∈ b'.axes, x.Lowers) (hbc : AgreesUnder σ b c) : AgreesUnder σ a c := by
  obtain ⟨hlen, hab⟩ := List.forall₂_iff_get.mp hab
  obtain ⟨hlen_c, hbc⟩ := List.forall₂_iff_get.mp hbc
  obtain ⟨hlen_b, hb⟩ := List.forall₂_iff_get.mp (substitute_eq_ok_iff.mp hb)
  refine List.forall₂_iff_get.mpr ⟨by omega, fun i hi hi' => ?_⟩
  exact (hab i hi (by omega)).trans (hb i (by omega) (by omega)) (hlow _ (List.get_mem _ _))
    (hbc i (by omega) hi')

/-- The first axes are compared, and so are the others. -/
theorem mismatchesFrom_cons_eq_ok_iff {position : Nat} {x y : Term} {as bs : List Term}
    {found : List Nat} :
    mismatchesFrom σ position (x :: as) (y :: bs) = .ok found ↔
      ∃ same rest, Term.ComparesAs σ same x y ∧ mismatchesFrom σ (position + 1) as bs = .ok rest ∧
        found = if same then rest else position :: rest := by
  simp only [mismatchesFrom, bind_eq_ok_iff, pure_eq_ok_iff, Term.ComparesAs]
  constructor
  · rintro ⟨x', hx, y', hy, same, hsame, rest, hrest, rfl⟩
    exact ⟨same, rest, ⟨x', y', hx, hy, hsame⟩, hrest, rfl⟩
  · rintro ⟨same, rest, ⟨x', y', hx, hy, hsame⟩, hrest, rfl⟩
    exact ⟨x', hx, y', hy, same, hsame, rest, hrest, rfl⟩

/-- Without positions of differences all axes are found to be equivalent. -/
theorem mismatchesFrom_nil {position : Nat} {as bs : List Term} (hlen : as.length = bs.length)
    (h : mismatchesFrom σ position as bs = .ok []) :
    List.Forall₂ (Term.ComparesAs σ true) as bs := by
  induction as generalizing position bs with
  | nil => rw [List.eq_nil_of_length_eq_zero hlen.symm]; exact List.Forall₂.nil
  | cons x as ih =>
    cases bs with
    | nil => cases hlen
    | cons y bs =>
      obtain ⟨same, rest, hxy, hrest, hnil⟩ := mismatchesFrom_cons_eq_ok_iff.mp h
      cases same with
      | true =>
        obtain rfl : [] = rest := hnil
        exact List.Forall₂.cons hxy (ih (Nat.succ.inj hlen) hrest)
      | false => cases hnil

/-- If all axes are found to be equivalent there are no positions of differences. -/
theorem mismatchesFrom_of_forall₂ {position : Nat} {as bs : List Term}
    (h : List.Forall₂ (Term.ComparesAs σ true) as bs) : mismatchesFrom σ position as bs = .ok [] := by
  induction h generalizing position with
  | nil => rfl
  | cons hxy _ ih => exact mismatchesFrom_cons_eq_ok_iff.mpr ⟨true, [], hxy, ih, rfl⟩

/-- The first position of a difference belongs to axes that are found not to be equivalent, and all
axes before it are found to be equivalent. -/
theorem mismatchesFrom_cons {position first : Nat} {as bs : List Term} {others : List Nat}
    (h : mismatchesFrom σ position as bs = .ok (first :: others)) :
    ∃ i x y, first = position + i ∧ as[i]? = some x ∧ bs[i]? = some y ∧
      Term.ComparesAs σ false x y ∧
      List.Forall₂ (Term.ComparesAs σ true) (as.take i) (bs.take i) := by
  induction as generalizing position bs with
  | nil => cases pure_eq_ok_iff.mp h
  | cons x as ih =>
    cases bs with
    | nil => cases pure_eq_ok_iff.mp h
    | cons y bs =>
      obtain ⟨same, rest, hxy, hrest, hfound⟩ := mismatchesFrom_cons_eq_ok_iff.mp h
      cases same with
      | true =>
        obtain rfl : first :: others = rest := hfound
        obtain ⟨i, v, w, hfirst, hv, hw, hdiffer, hbefore⟩ := ih hrest
        exact ⟨i + 1, v, w, by omega, hv, hw, hdiffer, List.Forall₂.cons hxy hbefore⟩
      | false =>
        obtain ⟨rfl, -⟩ := List.cons.inj hfound
        exact ⟨0, x, y, rfl, rfl, rfl, hxy, List.Forall₂.nil⟩

/-- Two shapes have the same number of axes, and all axes are found to be equivalent after a
substitution. -/
def Matches (σ : Substitution) (a b : Shape) : Prop :=
  List.Forall₂ (Term.ComparesAs σ true) a.axes b.axes

/-- A position is the first one at which two shapes are found to differ after a substitution. -/
def DiffersFirstAt (σ : Substitution) (a b : Shape) (position : Nat) : Prop :=
  ∃ x y, a.axes[position]? = some x ∧ b.axes[position]? = some y ∧ Term.ComparesAs σ false x y ∧
    List.Forall₂ (Term.ComparesAs σ true) (a.axes.take position) (b.axes.take position)

/-- Shapes that are found to be the same agree. -/
theorem Matches.agreesUnder (h : Matches σ a b) : AgreesUnder σ a b :=
  h.imp fun _ _ => Term.ComparesAs.agreesUnder

end Shape

/-- How two shapes differ after a substitution, in terms of their axes. -/
def Discrepancy.Describes (σ : Substitution) (a b : Shape) : Option Discrepancy → Prop
  | none => a.Matches σ b
  | some .rank => a.rank ≠ b.rank
  | some (.axis position) => a.rank = b.rank ∧ a.DiffersFirstAt σ b position

/-- The comparison of two shapes finds how they differ. -/
theorem describes_of_discrepancy {a b : Shape} {found : Option Discrepancy}
    (h : discrepancy σ a b = .ok found) : Discrepancy.Describes σ a b found := by
  unfold discrepancy at h
  split at h
  · rename_i hrank
    obtain ⟨positions, hpositions, h⟩ := bind_eq_ok_iff.mp h
    cases positions with
    | nil =>
      obtain rfl := pure_eq_ok_iff.mp h
      exact Shape.mismatchesFrom_nil hrank hpositions
    | cons first others =>
      obtain rfl := pure_eq_ok_iff.mp h
      obtain ⟨i, x, y, hfirst, hx, hy, hdiffer, hbefore⟩ :=
        Shape.mismatchesFrom_cons hpositions
      obtain rfl : first = i := by omega
      exact ⟨hrank, x, y, hx, hy, hdiffer, hbefore⟩
  · rename_i hrank
    obtain rfl := pure_eq_ok_iff.mp h
    exact hrank

/-- The comparison finds nothing exactly if the shapes match. -/
theorem discrepancy_eq_none_iff {a b : Shape} :
    discrepancy σ a b = .ok none ↔ a.Matches σ b := by
  refine ⟨describes_of_discrepancy, fun h => ?_⟩
  have hrank : a.rank = b.rank := h.length_eq
  rw [discrepancy, if_pos hrank]
  exact bind_eq_ok_iff.mpr ⟨[], Shape.mismatchesFrom_of_forall₂ h, rfl⟩

namespace Shape

variable {s t a b : Shape}

/-- Every extent of a shape has symbols of the author only. -/
def Authored (s : Shape) : Prop := ∀ x ∈ s.axes, x.Authored

/-- Every extent of a shape tells placeholders from the author's symbols. -/
def Distinguished (s : Shape) : Prop := ∀ x ∈ s.axes, x.Distinguished

/-- Every extent of a shape can be written by an author. -/
def Written (s : Shape) : Prop := ∀ x ∈ s.axes, x.Written

/-- A shape that occurs in inference: placeholders stand only in the first extent. -/
structure Flowing (s : Shape) : Prop where
  /-- Every extent can occur in inference. -/
  axes : ∀ x ∈ s.axes, x.Flowing
  /-- The extents after the first can be written by an author. -/
  tail : ∀ x ∈ s.axes.tail, x.Written

/-- Without placeholders there are none to be mistaken. -/
theorem Authored.distinguished (h : s.Authored) : s.Distinguished :=
  fun x hx => (h x hx).distinguished

/-- A shape stays as it is if nothing is replaced. -/
theorem substitute_eq_self (h : ∀ x ∈ s.axes, x.substitute σ = .ok x) :
    s.substitute σ = .ok s :=
  substitute_eq_ok_iff.mpr (List.forall₂_same.mpr h)

/-- A substitution of marked names leaves the author's shapes as they are. -/
theorem Authored.substitute_eq_self (h : s.Authored)
    (hmarked : ∀ name, (π name).isSome → Marked name) : s.substitute π = .ok s :=
  Shape.substitute_eq_self fun x hx => (h x hx).substitute_eq_self hmarked

/-- A shape of the author has symbols of the author only. -/
theorem Written.authored (h : s.Written) : s.Authored := fun x hx => (h x hx).authored

/-- A shape that occurs in inference tells placeholders from the author's symbols. -/
theorem Flowing.distinguished (h : s.Flowing) : s.Distinguished :=
  fun x hx => (h.axes x hx).distinguished

/-- A shape of the author can occur in inference. -/
theorem Written.flowing (h : s.Written) : s.Flowing :=
  ⟨fun x hx => (h x hx).flowing, fun x hx => h x (List.mem_of_mem_tail hx)⟩

/-- The declared extent of an axis that is the placeholder of a name. -/
def boundAxis (name : String) : Term × Term → Option (Outcome Term)
  | (.hole p, declared) => if p.name = name then some (.ok declared) else none
  | _ => none

/-- What a declared shape with the same number of axes says about the placeholders of a shape: each
stands for the declared extent of the first axis that it is. -/
def binding (s declared : Shape) : Substitution := fun name =>
  if s.rank = declared.rank then (s.axes.zip declared.axes).findSome? (boundAxis name) else none

/-- The placeholders that are collected from a shape are bound to what the declared shape says. -/
theorem binding_eq (a b : Shape) : a.binding b = .ofTerms (a.unify b) := by
  have hfold (name : String) (pairs : List (Term × Term)) (known : Dictionary Term) :
      Substitution.ofTerms (pairs.foldl unifyAxis known) name =
        (Substitution.ofTerms known name).or (pairs.findSome? (boundAxis name)) := by
    induction pairs generalizing known with
    | nil => simp
    | cons pair pairs ih =>
      obtain ⟨axis, want⟩ := pair
      rw [List.foldl_cons, ih, List.findSome?_cons]
      cases axis with
      | hole p =>
        simp only [Substitution.ofTerms, unifyAxis, Dictionary.get?_insertNew, boundAxis]
        by_cases hname : name = p.name
        · cases known.get? name <;> simp [hname, pure, Except.pure]
        · cases known.get? name <;> simp [hname, Ne.symm hname]
      | _ => rfl
  funext name
  unfold binding unify
  split
  · rw [hfold]
    rfl
  · rfl

/-- The extents that stand for placeholders are bound to extents of the declared shape. -/
theorem mem_of_binding {name : String} {r : Outcome Term} (h : a.binding b name = some r) :
    (∃ p, .hole p ∈ a.axes ∧ p.name = name) ∧ ∃ x ∈ b.axes, r = .ok x := by
  unfold binding at h
  split at h
  · obtain ⟨⟨axis, want⟩, hpair, hbound⟩ := List.exists_of_findSome?_eq_some h
    obtain ⟨haxis, hwant⟩ := List.of_mem_zip hpair
    unfold boundAxis at hbound
    split at hbound
    · rename_i p declared heq
      obtain ⟨rfl, rfl⟩ := Prod.mk.inj heq
      split at hbound
      · rename_i hname
        exact ⟨⟨p, haxis, hname⟩, want, hwant, (Option.some.inj hbound).symm⟩
      · cases hbound
    · cases hbound
  · cases h

/-- Binding the placeholders of a shape against another one replaces marked names. -/
theorem Distinguished.marked_binding (ha : a.Distinguished) :
    ∀ name, (a.binding b name).isSome → Marked name := by
  intro name hname
  obtain ⟨r, hr⟩ := Option.isSome_iff_exists.mp hname
  obtain ⟨⟨p, hp, rfl⟩, _⟩ := mem_of_binding hr
  exact ha _ hp

/-- Binding the placeholders of a shape against a shape of the author fills placeholders. -/
theorem Flowing.fills_binding (ha : a.Flowing) (hb : b.Written) : (a.binding b).Fills where
  marked := ha.distinguished.marked_binding
  written name x hx := by
    obtain ⟨_, y, hy, heq⟩ := mem_of_binding hx
    obtain rfl := Except.ok.inj heq
    exact hb x hy

/-- Replacing placeholders leaves the extents after the first as they are. -/
theorem Flowing.tail_substitute (hs : s.Flowing) (hπ : π.Fills) (h : s.substitute π = .ok t) :
    t.axes.tail = s.axes.tail := by
  have htail := List.forall₂_drop 1 (substitute_eq_ok_iff.mp h)
  rw [List.drop_one, List.drop_one] at htail
  rw [← List.forall₂_eq_eq_eq]
  refine List.forall₂_iff_get.mpr ⟨htail.length_eq.symm, fun i hi hi' => ?_⟩
  have hi := (List.forall₂_iff_get.mp htail).2 i hi' hi
  rw [hπ.substitute_eq_self (hs.tail _ (List.get_mem _ _)).authored] at hi
  exact (Except.ok.inj hi).symm

/-- A shape still occurs in inference after placeholders have been replaced. -/
theorem Flowing.substitute (hs : s.Flowing) (hπ : π.Fills) (h : s.substitute π = .ok t) :
    t.Flowing := by
  refine ⟨fun y hy => ?_, hs.tail_substitute hπ h ▸ hs.tail⟩
  obtain ⟨x, hx, hxy⟩ := exists_of_mem_right (substitute_eq_ok_iff.mp h) hy
  exact hπ.flowing (hs.axes x hx) hxy

end Shape

end Shapeline
