import Mathlib.Algebra.GCDMonoid.Basic
import Mathlib.Algebra.Ring.Int.Defs
import Mathlib.RingTheory.PrincipalIdealDomain
import Shapeline.Algebra.GcdRing

/-!
# The laws of exact division and greatest common divisors

The operations of a `GcdRing` compute in a commutative ring without zero divisors in which greatest
common divisors exist. The ring is kept apart from the type that represents its elements, so the
laws below relate each operation to what it means there. The integers represent themselves.
-/

namespace Shapeline

/-- An element is a greatest common divisor of two others. -/
structure IsGcd {S : Type} [CommRing S] (a b g : S) : Prop where
  /-- It divides the first. -/
  dvd_left : g ∣ a
  /-- It divides the second. -/
  dvd_right : g ∣ b
  /-- Every common divisor divides it. -/
  greatest : ∀ d, d ∣ a → d ∣ b → d ∣ g

namespace IsGcd

variable {S : Type} [CommRing S] {a b c g : S}

/-- The order of the two elements does not matter. -/
theorem symm (h : IsGcd a b g) : IsGcd b a g :=
  ⟨h.dvd_right, h.dvd_left, fun d ha hb => h.greatest d hb ha⟩

/-- An element is a greatest common divisor of itself and zero. -/
theorem zero_right (a : S) : IsGcd a 0 a := ⟨dvd_rfl, dvd_zero a, fun _ ha _ => ha⟩

/-- If one element is a unit, so is every greatest common divisor; one is such a divisor. -/
theorem one_left (b : S) : IsGcd 1 b 1 := ⟨dvd_rfl, one_dvd b, fun _ ha _ => ha⟩

/-- A greatest common divisor is not zero if one of the elements is not. -/
theorem ne_zero_of_right (h : IsGcd a b g) (hb : b ≠ 0) : g ≠ 0 := by
  rintro rfl
  exact hb (zero_dvd_iff.mp h.dvd_right)

/-- The signs of the elements do not matter. -/
theorem neg (h : IsGcd a b g) : IsGcd (-a) (-b) g :=
  ⟨h.dvd_left.neg_right, h.dvd_right.neg_right,
    fun d ha hb => h.greatest d (dvd_neg.mp ha) (dvd_neg.mp hb)⟩

/-- A factor that both elements have is a factor of their greatest common divisors. -/
theorem mul_right [IsDomain S] [IsGCDMonoid S] (h : IsGcd a b g) (c : S) :
    IsGcd (a * c) (b * c) (g * c) := by
  refine ⟨mul_dvd_mul_right h.dvd_left c, mul_dvd_mul_right h.dvd_right c, ?_⟩
  have := Classical.arbitrary (NormalizedGCDMonoid S)
  intro d ha hb
  have hgcd : d ∣ gcd (a * c) (b * c) := dvd_gcd ha hb
  have hle : gcd a b ∣ g := h.greatest _ (gcd_dvd_left a b) (gcd_dvd_right a b)
  exact (hgcd.trans (gcd_mul_right' c a b).dvd).trans (mul_dvd_mul_right hle c)

/-- If a common factor of two elements is their greatest common divisor, only units are left when it
is cancelled. -/
theorem of_mul_right [IsDomain S] (h : IsGcd (a * c) (b * c) c) (hc : c ≠ 0) : IsGcd a b 1 := by
  refine ⟨one_dvd a, one_dvd b, fun d ha hb => ?_⟩
  have hd : d * c ∣ 1 * c := by
    rw [one_mul]
    exact h.greatest (d * c) (mul_dvd_mul_right ha c) (mul_dvd_mul_right hb c)
  rwa [mul_dvd_mul_iff_right hc] at hd

end IsGcd

/-- The operations of a `GcdRing` are those of a ring that its elements represent. -/
class LawfulGcdRing (R : Type) [GcdRing R] where
  /-- The ring. -/
  Carrier : Type
  [commRing : CommRing Carrier]
  [isDomain : IsDomain Carrier]
  [isGCDMonoid : IsGCDMonoid Carrier]
  /-- The element of the ring that an element represents. -/
  embed : R ≃ Carrier
  embed_zero : embed 0 = 0
  embed_one : embed 1 = 1
  embed_add : ∀ a b, embed (a + b) = embed a + embed b
  embed_neg : ∀ a, embed (-a) = -embed a
  embed_mul : ∀ a b, embed (a * b) = embed a * embed b
  embed_ofInt : ∀ a, embed (GcdRing.ofInt a) = a
  /-- A quotient that is found is one. -/
  quotient?_sound : ∀ {a b c}, GcdRing.quotient? a b = some c → embed c * embed b = embed a
  /-- The quotient by a divisor that is not zero is found. -/
  quotient?_isSome : ∀ {a b}, b ≠ 0 → embed b ∣ embed a → (GcdRing.quotient? a b).isSome
  /-- Greatest common divisors are such. -/
  isGcd_gcd : ∀ a b, IsGcd (embed a) (embed b) (embed (GcdRing.gcd a b))
  /-- Taking values at a point is a homomorphism. -/
  value_hom : ∀ point, ∃ φ : Carrier →+* ℤ, ∀ a, GcdRing.value point a = φ (embed a)

namespace LawfulGcdRing

attribute [reducible] commRing

attribute [instance] commRing isDomain isGCDMonoid

attribute [simp] embed_zero embed_one embed_add embed_neg embed_mul embed_ofInt

variable {R : Type} [GcdRing R] [LawfulGcdRing R]

/-- Only zero represents zero. -/
@[simp] theorem embed_eq_zero {a : R} : embed a = 0 ↔ a = 0 := by
  rw [← embed_zero (R := R), EmbeddingLike.apply_eq_iff_eq]

/-- One and zero differ. -/
theorem one_ne_zero' : (1 : R) ≠ 0 := by
  rw [Ne, ← embed_eq_zero, embed_one]
  exact one_ne_zero

/-- A product is not zero if its factors are not. -/
theorem mul_ne_zero' {a b : R} (ha : a ≠ 0) (hb : b ≠ 0) : a * b ≠ 0 := by
  rw [Ne, ← embed_eq_zero, embed_mul, mul_eq_zero, embed_eq_zero, embed_eq_zero, not_or]
  exact ⟨ha, hb⟩

/-- The quotient by a divisor times the divisor is the dividend. -/
theorem embed_quotient {a b : R} (hb : b ≠ 0) (hdvd : embed b ∣ embed a) :
    embed (GcdRing.quotient a b) * embed b = embed a := by
  obtain ⟨c, hc⟩ := Option.isSome_iff_exists.mp (quotient?_isSome hb hdvd)
  rw [GcdRing.quotient, hc, Option.getD_some]
  exact quotient?_sound hc

/-- The greatest common divisor of a list divides each of its elements, and every common divisor
divides it. -/
theorem dvd_embed_gcdList_iff {elements : List R} {d : Carrier R} :
    d ∣ embed (GcdRing.gcdList elements) ↔ ∀ a ∈ elements, d ∣ embed a := by
  suffices h : ∀ start : R, d ∣ embed (elements.foldl GcdRing.gcd start) ↔
      d ∣ embed start ∧ ∀ a ∈ elements, d ∣ embed a by
    rw [GcdRing.gcdList, h 0]
    simp
  induction elements with
  | nil => simp
  | cons a rest ih =>
    intro start
    have hgcd := isGcd_gcd start a
    rw [List.foldl_cons, ih]
    constructor
    · rintro ⟨hd, hrest⟩
      refine ⟨hd.trans hgcd.dvd_left, fun b hb => ?_⟩
      rcases List.mem_cons.mp hb with rfl | hb
      · exact hd.trans hgcd.dvd_right
      · exact hrest b hb
    · rintro ⟨hd, hall⟩
      exact ⟨hgcd.greatest d hd (hall a (by simp)), fun b hb => hall b (by simp [hb])⟩

/-- The greatest common divisor of a list divides each of its elements. -/
theorem embed_gcdList_dvd {elements : List R} {a : R} (ha : a ∈ elements) :
    embed (GcdRing.gcdList elements) ∣ embed a :=
  dvd_embed_gcdList_iff.mp dvd_rfl a ha

end LawfulGcdRing

/-- The integers represent themselves. -/
instance : LawfulGcdRing Int where
  Carrier := ℤ
  embed := Equiv.refl ℤ
  embed_zero := rfl
  embed_one := rfl
  embed_add _ _ := rfl
  embed_neg _ := rfl
  embed_mul _ _ := rfl
  embed_ofInt _ := rfl
  quotient?_sound {a b c} h := by
    simp only [GcdRing.quotient?, Option.ite_none_right_eq_some, Option.some.injEq] at h
    obtain ⟨⟨_, hmod⟩, rfl⟩ := h
    exact Int.ediv_mul_cancel (Int.dvd_of_emod_eq_zero hmod)
  quotient?_isSome {a b} hb hdvd := by
    have hmod : a % b = 0 := Int.emod_eq_zero_of_dvd hdvd
    simp only [GcdRing.quotient?]
    rw [if_pos ⟨hb, hmod⟩]
    rfl
  isGcd_gcd a b :=
    ⟨Int.gcd_dvd_left a b, Int.gcd_dvd_right a b, fun _ ha hb => Int.dvd_coe_gcd ha hb⟩
  value_hom _ := ⟨RingHom.id ℤ, fun _ => rfl⟩

end Shapeline
