import LinkCommittee.History.Basic
import LinkCommittee.Share.Combination

/-!
# Searching for a matching pair of shares

A pair of share entries matches a candidate when they combine to a key from which
the candidate's identity point derives.  The search goes through the messages of a
token in pairs, an earlier one before a later one, and through the entries of a pair
in order, and stops at the first pair of entries that matches.  Entries that do not
combine never stop it.
-/

namespace LinkCommittee

/-- All pairs of an earlier and a later item, by the earlier one first. -/
def pairs {α : Type} : List α → List (α × α)
  | [] => []
  | a :: items => items.map (a, ·) ++ pairs items

/-- All pairs of entries that a list of messages offers, in the order of the search. -/
def combinations (messages : List SenderShares) : List (ShareEntry × ShareEntry) :=
  (pairs messages).flatMap fun (first, second) =>
    first.entries.flatMap fun x => second.entries.map fun y => (x, y)

/-- What a search found and how often it called on the combiner. -/
structure Tally where
  matched : Bool
  combines : Nat
  derives : Nat
deriving DecidableEq

namespace Tally

/-- The tally of a search that tried nothing. -/
def none : Tally := ⟨false, 0, 0⟩

/-- The tally of a search that first failed to combine a pair. -/
def afterRefusal (rest : Tally) : Tally := { rest with combines := rest.combines + 1 }

/-- The tally of a search that first combined a pair to no avail. -/
def afterMiss (rest : Tally) : Tally := ⟨rest.matched, rest.combines + 1, rest.derives + 1⟩

end Tally

namespace Combiner

/-- Tries pairs of entries until the identity point derives from one of them. -/
def search (combiner : Combiner) (identity auxiliary : PublicKey) :
    List (ShareEntry × ShareEntry) → Tally
  | [] => .none
  | (x, y) :: rest =>
    match combiner.combine x y with
    | .error _ => (combiner.search identity auxiliary rest).afterRefusal
    | .ok shared =>
      match combiner.derive shared auxiliary with
      | .error _ => (combiner.search identity auxiliary rest).afterMiss
      | .ok derived =>
        if derived = identity then ⟨true, 1, 1⟩
        else (combiner.search identity auxiliary rest).afterMiss

end Combiner

end LinkCommittee
