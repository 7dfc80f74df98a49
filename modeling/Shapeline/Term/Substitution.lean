import Shapeline.Dictionary
import Shapeline.Term.Normal

/-!
# Substitution

Symbols are replaced by name, all at once. A part of a term that mentions no replaced symbol stays
as it is; every other division is checked again, because its divisor may have become zero.
-/

namespace Shapeline

/-- What replaces each symbol: nothing, a term, or a replacement that turns out to be no term. -/
abbrev Substitution := String → Option (Outcome Term)

/-- The substitution that a dictionary of terms describes. -/
def Substitution.ofTerms (terms : Dictionary Term) : Substitution := fun name =>
  (terms.get? name).map pure

namespace Term

/-- Whether a term mentions a symbol that is replaced. -/
def mentions (σ : Substitution) (t : Term) : Bool := t.symbols.any fun name => (σ name).isSome

/-- Replace the symbols of a term. -/
def substitute (σ : Substitution) : Term → Outcome Term
  | const n => pure (const n)
  | sym name => (σ name).getD (pure (sym name))
  | hole p => (σ p.name).getD (pure (hole p))
  | op o left right =>
    if (op o left right).mentions σ then do
      let l ← left.substitute σ
      let r ← right.substitute σ
      apply o l r
    else pure (op o left right)

/-- Replace the symbols of a term by the terms of a dictionary. -/
def substituteTerms (terms : Dictionary Term) (t : Term) : Outcome Term :=
  t.substitute (.ofTerms terms)

end Term

/-- Replace the symbols of the given entries, one after another, by the entries as they are by
then. -/
def expandEntries : List String → Dictionary Term → Outcome (Dictionary Term)
  | [], terms => pure terms
  | name :: rest, terms =>
    match terms.get? name with
    | none => expandEntries rest terms
    | some t => do
      let expanded ← t.substituteTerms terms
      expandEntries rest (terms.insert name expanded)

/-- The names whose terms mention a name of the dictionary. -/
def pendingEntries (terms : Dictionary Term) : List String :=
  (terms.entries.filter fun (_, t) => t.symbols.any terms.contains).map Prod.fst

/-- Expand the entries that refer to others, for a number of rounds or until none does. -/
def expandRounds : Nat → Dictionary Term → Outcome (Dictionary Term)
  | 0, terms => pure terms
  | rounds + 1, terms =>
    match pendingEntries terms with
    | [] => pure terms
    | pending => do expandRounds rounds (← expandEntries pending terms)

/-- A dictionary of terms with the references between its entries replaced. Without a cycle one
round for each entry is enough; with one the rounds end there. -/
def resolveReferences (terms : Dictionary Term) : Outcome (Dictionary Term) :=
  expandRounds terms.size terms

end Shapeline
