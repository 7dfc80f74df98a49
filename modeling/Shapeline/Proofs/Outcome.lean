import Mathlib.Data.List.Forall2
import Shapeline.Reporting

/-!
# Successful runs

A sequence of operations succeeds exactly if its parts do, one after another. The same holds for an
operation on every item of a list and for operations that report: what a successful run records is
what its parts record, joined in order.
-/

namespace Shapeline

variable {α β γ ε : Type}

/-- A sequence of two operations succeeds if both do. -/
theorem bind_eq_ok_iff {x : Except ε α} {f : α → Except ε β} {b : β} :
    (x >>= f) = .ok b ↔ ∃ a, x = .ok a ∧ f a = .ok b := by
  cases x <;> simp [bind, Except.bind]

/-- A sequence of two operations fails if the first does, or the second after it. -/
theorem bind_eq_error_iff {x : Except ε α} {f : α → Except ε β} {e : ε} :
    (x >>= f) = .error e ↔ x = .error e ∨ ∃ a, x = .ok a ∧ f a = .error e := by
  cases x <;> simp [bind, Except.bind]

/-- An operation that has a result succeeds with it. -/
theorem pure_eq_ok_iff {a b : α} : (pure a : Except ε α) = .ok b ↔ b = a := by
  simp [pure, Except.pure, eq_comm]

/-- A change of the failure does not touch a success. -/
theorem mapError_eq_ok_iff {f : ε → ε} {x : Except ε α} {a : α} :
    x.mapError f = .ok a ↔ x = .ok a := by
  cases x <;> simp [Except.mapError]

/-- A result that is there is that of a success. -/
theorem toOption_eq_some_iff {x : Except ε α} {a : α} : x.toOption = some a ↔ x = .ok a := by
  cases x <;> simp [Except.toOption]

/-- A computation succeeds exactly if its result is there. -/
theorem exists_eq_ok_iff {x : Except ε α} : (∃ a, x = .ok a) ↔ x.toOption.isSome = true := by
  cases x <;> simp [Except.toOption]

/-- Two computations succeed together if each does whenever the other one does. What relates the
result of the first to one of the second then relates all their results. -/
theorem succeed_together {R : α → β → Prop} {x : Except ε α} {y : Except ε β}
    (hforward : ∀ a, x = .ok a → ∃ b, y = .ok b ∧ R a b) (hback : ∀ b, y = .ok b → ∃ a, x = .ok a) :
    ((∃ a, x = .ok a) ↔ ∃ b, y = .ok b) ∧ ∀ a b, x = .ok a → y = .ok b → R a b := by
  refine ⟨⟨?_, fun ⟨b, hb⟩ => hback b hb⟩, fun a b ha hb => ?_⟩
  · rintro ⟨a, ha⟩
    obtain ⟨b, hb, -⟩ := hforward a ha
    exact ⟨b, hb⟩
  · obtain ⟨found, hfound, hrelated⟩ := hforward a ha
    obtain rfl := Except.ok.inj (hb.symm.trans hfound)
    exact hrelated

/-- What a fold establishes at one item and keeps at all items holds of its result. -/
theorem foldl_establishes {P : β → Prop} {f : β → α → β} {as : List α} {a : α} (ha : a ∈ as)
    (hkeeps : ∀ s x, P s → P (f s x)) (hestablishes : ∀ s, P (f s a)) (start : β) :
    P (as.foldl f start) := by
  obtain ⟨before, after, rfl⟩ := List.append_of_mem ha
  rw [List.foldl_append, List.foldl_cons]
  exact List.foldlRecOn after f (hestablishes _) fun s hs x _ => hkeeps s x hs

/-- An item of the second of two related lists is related to one of the first. -/
theorem exists_of_mem_right {R : α → β → Prop} {as : List α} {bs : List β}
    (h : List.Forall₂ R as bs) {b : β} (hb : b ∈ bs) : ∃ a ∈ as, R a b := by
  induction h with
  | nil => cases hb
  | cons hab _ ih =>
    rcases List.mem_cons.mp hb with rfl | hb
    · exact ⟨_, List.mem_cons_self, hab⟩
    · obtain ⟨a, ha, hab⟩ := ih hb
      exact ⟨a, List.mem_cons_of_mem _ ha, hab⟩

/-- An item of the first of two related lists is related to one of the second. -/
theorem exists_of_mem_left {R : α → β → Prop} {as : List α} {bs : List β}
    (h : List.Forall₂ R as bs) {a : α} (ha : a ∈ as) : ∃ b ∈ bs, R a b :=
  exists_of_mem_right h.flip ha

/-- The first item of the second of two related lists is related to the first one of the first. -/
theorem exists_of_head? {R : α → β → Prop} {as : List α} {bs : List β} (h : List.Forall₂ R as bs)
    {b : β} (hb : b ∈ bs.head?) : ∃ a ∈ as.head?, R a b := by
  cases h with
  | nil => cases hb
  | cons hab _ => exact ⟨_, rfl, Option.some.inj hb ▸ hab⟩

/-- If every item of a list is related to something, the list is related to a list. -/
theorem exists_forall₂ {R : α → β → Prop} {as : List α} (h : ∀ a ∈ as, ∃ b, R a b) :
    ∃ bs, List.Forall₂ R as bs := by
  induction as with
  | nil => exact ⟨[], List.Forall₂.nil⟩
  | cons a as ih =>
    obtain ⟨⟨b, hb⟩, hrest⟩ := List.forall_mem_cons.mp h
    obtain ⟨bs, hbs⟩ := ih hrest
    exact ⟨b :: bs, List.Forall₂.cons hb hbs⟩

/-- What relates the items of two lists can be carried over to lists related to them. -/
theorem forall₂_transport {α' β' : Type} {R : α → β → Prop} {S : α → α' → Prop} {T : β → β' → Prop}
    {Q : α' → β' → Prop} (hQ : ∀ a b a' b', R a b → S a a' → T b b' → Q a' b')
    {as : List α} {bs : List β} {as' : List α'} {bs' : List β'} (hR : List.Forall₂ R as bs)
    (hS : List.Forall₂ S as as') (hT : List.Forall₂ T bs bs') : List.Forall₂ Q as' bs' := by
  induction hR generalizing as' bs' with
  | nil => cases hS; cases hT; exact List.Forall₂.nil
  | cons hab _ ih =>
    cases hS with
    | cons ha hS =>
      cases hT with
      | cons hb hT => exact List.Forall₂.cons (hQ _ _ _ _ hab ha hb) (ih hS hT)

/-- What follows for related items follows for related lists. -/
theorem exists_forall₂_image {α' β' : Type} {R : α → β → Prop} {F : α → α' → Prop}
    {G : β → β' → Prop} {Q : α' → β' → Prop}
    (hQ : ∀ a b a', R a b → F a a' → ∃ b', G b b' ∧ Q a' b') {as : List α} {bs : List β}
    {as' : List α'} (hR : List.Forall₂ R as bs) (hF : List.Forall₂ F as as') :
    ∃ bs', List.Forall₂ G bs bs' ∧ List.Forall₂ Q as' bs' := by
  induction hR generalizing as' with
  | nil =>
    cases hF
    exact ⟨[], .nil, .nil⟩
  | cons hab _ ih =>
    cases hF with
    | cons ha has =>
      obtain ⟨b', hb', hrelated⟩ := hQ _ _ _ hab ha
      obtain ⟨bs', hbs', hall⟩ := ih has
      exact ⟨b' :: bs', .cons hb' hbs', .cons hrelated hall⟩

/-- A relation between the items of two lists may be replaced by one that follows for items of these
lists. -/
theorem forall₂_imp_of_mem {R S : α → β → Prop} {P : α → Prop} {Q : β → Prop} {as : List α}
    {bs : List β} (h : List.Forall₂ R as bs) (has : ∀ a ∈ as, P a) (hbs : ∀ b ∈ bs, Q b)
    (hS : ∀ a b, R a b → P a → Q b → S a b) : List.Forall₂ S as bs := by
  induction h with
  | nil => exact .nil
  | cons hab _ ih =>
    obtain ⟨ha, has⟩ := List.forall_mem_cons.mp has
    obtain ⟨hb, hbs⟩ := List.forall_mem_cons.mp hbs
    exact .cons (hS _ _ hab ha hb) (ih has hbs)

/-- Items at one place of two lists are related. -/
theorem forall₂_getElem? {R : α → β → Prop} {as : List α} {bs : List β} {a : α} {b : β} {i : ℕ}
    (h : List.Forall₂ R as bs) (ha : as[i]? = some a) (hb : bs[i]? = some b) : R a b := by
  obtain ⟨hi, rfl⟩ := List.getElem?_eq_some_iff.mp ha
  obtain ⟨hi', rfl⟩ := List.getElem?_eq_some_iff.mp hb
  exact h.get hi hi'

/-- Two lists whose items agree in something agree in it as lists. -/
theorem map_eq_map_of_forall₂ {f : α → γ} {g : β → γ} {as : List α} {bs : List β}
    (h : List.Forall₂ (fun a b => f a = g b) as bs) : as.map f = bs.map g := by
  rw [← List.forall₂_eq_eq_eq, List.forall₂_map_left_iff, List.forall₂_map_right_iff]
  exact h

/-- A list whose items are the images of those of another list is the image of that list. -/
theorem forall₂_image_iff {f : α → β} {as : List α} {bs : List β} :
    List.Forall₂ (fun a b => b = f a) as bs ↔ bs = as.map f := by
  constructor
  · intro h
    have hmap : as.map f = bs.map id := map_eq_map_of_forall₂ (h.imp fun _ _ hab => hab.symm)
    rw [hmap, List.map_id]
  · rintro rfl
    exact List.forall₂_map_right_iff.mpr (List.forall₂_same.mpr fun _ _ => rfl)

/-- Results that are all there are related to the items themselves. -/
theorem forall₂_filterMap {R : α → β → Prop} {as : List α} {bs : List (Option β)}
    (h : List.Forall₂ (fun a b => ∃ c, b = some c ∧ R a c) as bs) :
    List.Forall₂ R as (bs.filterMap id) := by
  induction h with
  | nil => exact .nil
  | cons hab _ ih =>
    obtain ⟨c, rfl, hc⟩ := hab
    exact .cons hc ih

/-- An operation on every item of a list succeeds if it succeeds on each. -/
theorem mapM_eq_ok_iff {f : α → Except ε β} {as : List α} {bs : List β} :
    as.mapM f = .ok bs ↔ List.Forall₂ (fun a b => f a = .ok b) as bs := by
  induction as generalizing bs with
  | nil => simp [pure_eq_ok_iff]
  | cons a as ih =>
    rw [List.mapM_cons, bind_eq_ok_iff, List.forall₂_cons_left_iff]
    constructor
    · rintro ⟨b, hb, h⟩
      obtain ⟨rest, hrest, h⟩ := bind_eq_ok_iff.mp h
      exact ⟨b, rest, hb, ih.mp hrest, pure_eq_ok_iff.mp h⟩
    · rintro ⟨b, rest, hb, hrest, rfl⟩
      exact ⟨b, hb, bind_eq_ok_iff.mpr ⟨rest, ih.mpr hrest, rfl⟩⟩

/-- A partial function has a result on a list if it has one on each item. -/
theorem mapM_eq_some_iff {f : α → Option β} {as : List α} {bs : List β} :
    as.mapM f = some bs ↔ List.Forall₂ (fun a b => f a = some b) as bs := by
  induction as generalizing bs with
  | nil => simp [eq_comm]
  | cons a as ih =>
    rw [List.mapM_cons, Option.bind_eq_bind, Option.bind_eq_some_iff, List.forall₂_cons_left_iff]
    constructor
    · rintro ⟨b, hb, h⟩
      obtain ⟨rest, hrest, h⟩ := Option.bind_eq_some_iff.mp h
      exact ⟨b, rest, hb, ih.mp hrest, (Option.some.inj h).symm⟩
    · rintro ⟨b, rest, hb, hrest, rfl⟩
      exact ⟨b, hb, Option.bind_eq_some_iff.mpr ⟨rest, ih.mpr hrest, rfl⟩⟩

/-- A fold of operations keeps what each of them keeps. -/
theorem foldlM_keeps {f : β → α → Except ε β} {P : β → Prop} {items : List α}
    (hstep : ∀ item ∈ items, ∀ b c, P b → f b item = .ok c → P c) {start last : β}
    (hstart : P start) (h : items.foldlM f start = .ok last) : P last := by
  induction items generalizing start with
  | nil => exact pure_eq_ok_iff.mp h ▸ hstart
  | cons item rest ih =>
    obtain ⟨next, hnext, h⟩ := bind_eq_ok_iff.mp h
    obtain ⟨hfirst, hrest⟩ := List.forall_mem_cons.mp hstep
    have hkept := hfirst start next hstart hnext
    exact ih hrest hkept h

/-- A fold of operations fails where one of them does. -/
theorem exists_of_foldlM_eq_error {f : β → α → Except ε β} {items : List α} {start : β} {e : ε}
    (h : items.foldlM f start = .error e) : ∃ item ∈ items, ∃ b, f b item = .error e := by
  induction items generalizing start with
  | nil => cases h
  | cons item rest ih =>
    rcases bind_eq_error_iff.mp h with hfirst | ⟨next, -, hrest⟩
    · exact ⟨item, List.mem_cons_self, start, hfirst⟩
    · obtain ⟨other, hother, hfails⟩ := ih hrest
      exact ⟨other, List.mem_cons_of_mem _ hother, hfails⟩

/-- An operation returns a result with a property. -/
def Returns (P : α → Prop) (x : Except ε α) : Prop := ∃ a, x = .ok a ∧ P a

namespace Returns

variable {P : α → Prop} {Q : β → Prop}

/-- A result is returned. -/
theorem of_pure {a : α} (h : P a) : Returns P (pure a : Except ε α) := ⟨a, rfl, h⟩

/-- A sequence of operations returns if the second one returns from every result of the first. -/
theorem of_bind {x : Except ε α} {f : α → Except ε β} (hx : Returns P x)
    (hf : ∀ a, P a → Returns Q (f a)) : Returns Q (x >>= f) := by
  obtain ⟨a, rfl, ha⟩ := hx
  exact hf a ha

/-- A fold of operations returns if each of them does and keeps a property. -/
theorem of_foldlM {f : β → α → Except ε β} {items : List α}
    (hstep : ∀ item ∈ items, ∀ b, Q b → Returns Q (f b item)) {start : β} (hstart : Q start) :
    Returns Q (items.foldlM f start) := by
  induction items generalizing start with
  | nil => exact of_pure hstart
  | cons item rest ih =>
    obtain ⟨hfirst, hrest⟩ := List.forall_mem_cons.mp hstep
    rw [List.foldlM_cons]
    exact (hfirst start hstart).of_bind fun next hnext => ih hrest hnext

end Returns

/-- Two operations succeed together, and the result of the second is the image of the result of the
first. -/
def Mirrors (f : α → β) (x : Except ε α) (x' : Except ε β) : Prop :=
  x'.toOption = x.toOption.map f

/-- Two operations succeed together with the same results. -/
theorem mirrors_id_iff {x x' : Except ε α} : Mirrors id x x' ↔ ∀ a, x' = .ok a ↔ x = .ok a := by
  rw [Mirrors, Option.map_id, id, Option.ext_iff]
  simp only [toOption_eq_some_iff]

namespace Mirrors

variable {α' β' : Type} {f : α → β} {x : Except ε α} {x' : Except ε β}

/-- The image of a result is the result of the mirroring operation. -/
theorem ok (h : Mirrors f x x') {a : α} (hx : x = .ok a) : x' = .ok (f a) := by
  rw [Mirrors, hx] at h
  exact toOption_eq_some_iff.mp h

/-- An operation that has a result mirrors one that has a result. -/
theorem of_pure (a : α) : Mirrors f (pure a : Except ε α) (pure (f a)) := rfl

/-- An operation that fails mirrors one that fails. -/
theorem of_throw {e e' : ε} : Mirrors f (throw e : Except ε α) (throw e' : Except ε β) := rfl

/-- To change the result of an operation mirrors it. -/
theorem of_map (f : α → β) (x : Except ε α) : Mirrors f x (x.map f) := by
  cases x <;> rfl

/-- An operation mirrors itself. -/
theorem refl (x : Except ε α) : Mirrors id x x := mirrors_id_iff.mpr fun _ => Iff.rfl

/-- Sequences of operations mirror each other part by part. -/
theorem of_bind {g : α' → β'} {next : α → Except ε α'} {next' : β → Except ε β'}
    (h : Mirrors f x x') (hnext : ∀ a, Mirrors g (next a) (next' (f a))) :
    Mirrors g (x >>= next) (x' >>= next') := by
  cases x with
  | error e =>
    cases x' with
    | error e' => rfl
    | ok b => cases h
  | ok a =>
    obtain rfl := h.ok rfl
    exact hnext a

/-- A choice with one condition mirrors another one branch by branch. -/
theorem of_ite {c : Prop} [Decidable c] {y : Except ε α} {y' : Except ε β} (h : Mirrors f x x')
    (hy : Mirrors f y y') : Mirrors f (if c then x else y) (if c then x' else y') := by
  split
  · exact h
  · exact hy

/-- What is made of a failure does not matter. -/
theorem of_mapError {e e' : ε → ε} (h : Mirrors f x x') :
    Mirrors f (x.mapError e) (x'.mapError e') := by
  cases x <;> cases x' <;> exact h

/-- Operations on the items of a list mirror those on their images. -/
theorem of_mapM {u : α' → β'} {next : α' → Except ε α} {next' : β' → Except ε β}
    (h : ∀ a, Mirrors f (next a) (next' (u a))) (items : List α') :
    Mirrors (List.map f) (items.mapM next) ((items.map u).mapM next') := by
  induction items with
  | nil => rfl
  | cons item rest ih =>
    rw [List.map_cons, List.mapM_cons, List.mapM_cons]
    exact (h item).of_bind fun a => ih.of_bind fun as => of_pure (a :: as)

end Mirrors

namespace Report

variable (a b c : Report)

/-- Reports are joined as lists are. -/
theorem append_assoc : a ++ b ++ c = a ++ (b ++ c) := by
  change Report.mk (_ ++ _ ++ _) (_ ++ _ ++ _) (_ ++ _ ++ _) = Report.mk _ _ _
  rw [List.append_assoc, List.append_assoc, List.append_assoc]
  rfl

/-- To join the empty report at the end changes nothing. -/
theorem append_empty : a ++ {} = a := by
  change Report.mk (_ ++ []) (_ ++ []) (_ ++ []) = a
  rw [List.append_nil, List.append_nil, List.append_nil]

end Report

namespace Reporting

/-- Operations that report are run in sequence as statements are: it does not matter how they are
grouped, and an operation that only has a result can be left out. -/
instance : LawfulMonad Reporting := .mk' Reporting
  (fun x => by
    obtain ⟨report, outcome⟩ := x
    cases outcome with
    | error failure => rfl
    | ok a => exact congrArg₂ Reporting.mk report.append_empty rfl)
  (fun _ _ => rfl)
  (fun x f g => by
    obtain ⟨report, outcome⟩ := x
    cases outcome with
    | error failure => rfl
    | ok a =>
      change andThen (andThen ⟨report, .ok a⟩ f) g = andThen ⟨report, .ok a⟩ fun b => andThen (f b) g
      simp only [andThen]
      cases (f a).outcome with
      | error failure => rfl
      | ok b => exact congrArg₂ Reporting.mk (Report.append_assoc ..) rfl)

/-- What follows an operation matters only at the result that it has. -/
theorem bind_congr_of_outcome {x : Reporting α} {f g : α → Reporting β}
    (h : ∀ a, x.outcome = .ok a → f a = g a) : x >>= f = x >>= g := by
  change x.andThen f = x.andThen g
  unfold andThen
  split
  · rename_i a ha
    rw [h a ha]
  · rfl

/-- An operation followed by another one has the result of the other one. -/
theorem outcome_bind_eq_ok_iff {x : Reporting α} {f : α → Reporting β} {b : β} :
    (x >>= f).outcome = .ok b ↔ ∃ a, x.outcome = .ok a ∧ (f a).outcome = .ok b := by
  obtain ⟨report, outcome⟩ := x
  cases outcome <;> simp [bind, andThen]

/-- An operation that has a result is followed by what comes next. -/
theorem bind_of_outcome {x : Reporting α} {f : α → Reporting β} {a : α} (h : x.outcome = .ok a) :
    x >>= f = ⟨x.report ++ (f a).report, (f a).outcome⟩ := by
  change x.andThen f = _
  unfold andThen
  rw [h]

/-- Two operations in a row succeed exactly if both do, and record what both record. -/
theorem bind_eq_ok_iff {x : Reporting α} {f : α → Reporting β}
    {report : Report} {b : β} :
    x >>= f = ⟨report, .ok b⟩ ↔ ∃ a first second, x = ⟨first, .ok a⟩ ∧ f a = ⟨second, .ok b⟩ ∧
      report = first ++ second := by
  obtain ⟨known, outcome⟩ := x
  cases outcome with
  | error failure => simp [bind, andThen]
  | ok a =>
    have hjoin : (⟨known, .ok a⟩ : Reporting α) >>= f = ⟨known ++ (f a).report, (f a).outcome⟩ := rfl
    rw [hjoin]
    constructor
    · intro h
      obtain ⟨hreport, houtcome⟩ := Reporting.mk.inj h
      exact ⟨a, known, (f a).report, rfl, houtcome ▸ rfl, hreport.symm⟩
    · rintro ⟨other, first, second, hx, hf, rfl⟩
      obtain ⟨rfl, ha⟩ := Reporting.mk.inj hx
      obtain rfl := Except.ok.inj ha
      rw [hf]

/-- An operation that only has a result records nothing. -/
theorem pure_eq_ok_iff {a b : α} {report : Report} :
    (pure a : Reporting α) = ⟨report, .ok b⟩ ↔ report = {} ∧ b = a := by
  simp [pure, eq_comm]

/-- What is made of the result of an operation is recorded by the operation. -/
theorem bind_pure_eq_ok_iff {x : Reporting α} {f : α → β} {report : Report} {b : β} :
    (do pure (f (← x))) = ⟨report, .ok b⟩ ↔ ∃ a, x = ⟨report, .ok a⟩ ∧ b = f a := by
  rw [bind_eq_ok_iff]
  constructor
  · rintro ⟨a, first, second, hx, hpure, rfl⟩
    obtain ⟨rfl, rfl⟩ := pure_eq_ok_iff.mp hpure
    rw [Report.append_empty]
    exact ⟨a, hx, rfl⟩
  · rintro ⟨a, hx, rfl⟩
    exact ⟨a, report, {}, hx, rfl, report.append_empty.symm⟩

/-- An operation succeeds with a result and records some diagnostics on the way. -/
def Yields (x : Reporting α) (errors : List Diagnostic) (a : α) : Prop :=
  x.outcome = .ok a ∧ x.report.errors = errors

/-- What an operation yields is what it records and returns, without the warnings and notes. -/
theorem yields_iff {x : Reporting α} {errors : List Diagnostic} {a : α} :
    x.Yields errors a ↔ ∃ report : Report, x = ⟨report, .ok a⟩ ∧ report.errors = errors := by
  obtain ⟨report, outcome⟩ := x
  simp [Yields, and_comm]

/-- An operation yields the diagnostics of its report. -/
theorem yields_of_eq {x : Reporting α} {report : Report} {a : α} (h : x = ⟨report, .ok a⟩) :
    x.Yields report.errors a := yields_iff.mpr ⟨report, h, rfl⟩

/-- An operation that only has a result yields no diagnostics. -/
theorem yields_pure_iff {a b : α} {errors : List Diagnostic} :
    (pure a : Reporting α).Yields errors b ↔ errors = [] ∧ b = a := by
  simp [Yields, pure, and_comm, eq_comm]

/-- A sequence of two operations records what the parts record. -/
theorem yields_bind_iff {x : Reporting α} {f : α → Reporting β} {errors : List Diagnostic} {b : β} :
    (x >>= f).Yields errors b ↔
      ∃ a first second, x.Yields first a ∧ (f a).Yields second b ∧ errors = first ++ second := by
  obtain ⟨report, outcome⟩ := x
  cases outcome with
  | error failure => simp [Yields, bind, andThen]
  | ok a =>
    have hjoin (r s : Report) : (r ++ s).errors = r.errors ++ s.errors := rfl
    simp [Yields, bind, andThen, hjoin, eq_comm]

/-- A sequence of two operations records nothing if neither part does. -/
theorem yields_bind_nil_iff {x : Reporting α} {f : α → Reporting β} {b : β} :
    (x >>= f).Yields [] b ↔ ∃ a, x.Yields [] a ∧ (f a).Yields [] b := by
  rw [yields_bind_iff]
  constructor
  · rintro ⟨a, first, second, hx, hf, hnil⟩
    obtain ⟨rfl, rfl⟩ := List.append_eq_nil_iff.mp hnil.symm
    exact ⟨a, hx, hf⟩
  · rintro ⟨a, hx, hf⟩
    exact ⟨a, [], [], hx, hf, rfl⟩

/-- An operation that cannot report records nothing. -/
theorem yields_ofOutcome_iff {outcome : Outcome α} {errors : List Diagnostic} {a : α} :
    (ofOutcome outcome).Yields errors a ↔ errors = [] ∧ outcome = .ok a := by
  simp [Yields, ofOutcome, and_comm, eq_comm]

/-- Recording yields the diagnostics of the report. -/
theorem yields_record_iff {report : Report} {errors : List Diagnostic} {u : Unit} :
    (record report).Yields errors u ↔ errors = report.errors := by
  simp [Yields, record, eq_comm]

/-- A sequence of two operations fails if the first does, or the second after the first. -/
theorem outcome_bind_eq_error {x : Reporting α} {f : α → Reporting β} {failure : Failure}
    (h : (x >>= f).outcome = .error failure) :
    x.outcome = .error failure ∨
      ∃ a, x.Yields x.report.errors a ∧ (f a).outcome = .error failure := by
  change (x.andThen f).outcome = _ at h
  unfold andThen at h
  split at h
  · rename_i a ha
    exact Or.inr ⟨a, ⟨ha, rfl⟩, h⟩
  · rename_i other hother
    exact Or.inl (hother.trans (congrArg _ (Except.error.inj h)))

end Reporting

end Shapeline
