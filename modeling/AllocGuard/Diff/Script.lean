/-! An edit script that turns one list of lines into another. The middle of a shortest
script is found by searching from both ends at once, and the two halves are treated
alike. Every run of the script carries its place in both lists. -/
namespace AllocGuard.Diff

inductive Action where
  | keep
  | delete
  | insert
deriving Repr, DecidableEq

/-- A run of lines that are treated alike. -/
structure Run where
  action : Action
  /-- Where the run starts in the old list. -/
  old : Nat
  /-- Where the run starts in the new list. -/
  new : Nat
  length : Nat
deriving Repr, DecidableEq

/-- How many lines two lists have in common at their fronts. -/
def commonFront : List String → List String → Nat
  | a :: as, b :: bs => if a = b then commonFront as bs + 1 else 0
  | _, _ => 0

/-- How many lines two lists have in common at their ends. -/
def commonBack (as bs : List String) : Nat :=
  commonFront as.reverse bs.reverse

/-! ## The middle of a script -/

/-- How far a search has come on each diagonal. A diagonal is a difference between the
places in the two lists, and the entry counts lines of the old one. -/
structure Frontier where
  /-- The place of diagonal zero. -/
  center : Nat
  reached : Array Nat

namespace Frontier

def start (radius : Nat) : Frontier :=
  ⟨radius, Array.replicate (2 * radius + 1) 0⟩

def count (f : Frontier) (diagonal : Int) : Nat :=
  f.reached.getD (f.center + diagonal).toNat 0

def reach (f : Frontier) (diagonal : Int) (count : Nat) : Frontier :=
  { f with reached := f.reached.setIfInBounds (f.center + diagonal).toNat count }

/-- Where a search with `edits` edits starts on a diagonal: one insertion from the
diagonal above, or one deletion from the one below, whichever has come farther. -/
def entry (f : Frontier) (edits diagonal : Int) : Nat :=
  if diagonal = -edits ∨ (diagonal ≠ edits ∧ f.count (diagonal - 1) < f.count (diagonal + 1)) then
    f.count (diagonal + 1)
  else f.count (diagonal - 1) + 1

end Frontier

/-- The diagonals that so many edits lead to, from the highest down. -/
def diagonals (edits : Nat) : List Int :=
  (List.range (edits + 1)).map fun (i : Nat) => (edits : Int) - 2 * i

/-- How many lines two lists have in common from these places on. -/
def commonRun (as bs : Array String) (i j : Nat) : Nat :=
  if inside : i < as.size ∧ j < bs.size then
    if as[i] = bs[j] then commonRun as bs (i + 1) (j + 1) + 1 else 0
  else 0
termination_by as.size - i

/-- How far a search comes on a diagonal: its start there, and how many lines follow
that both lists have in common. The start is none of the new list's places if the
diagonal leads out of it. -/
def advance (f : Frontier) (as bs : Array String) (edits : Nat) (diagonal : Int) : Nat × Nat :=
  let x := f.entry edits diagonal
  let y := (x : Int) - diagonal
  (x, if 0 ≤ y then commonRun as bs x y.toNat else 0)

/-- What a round of a search came to: a split of both lists, or a farther frontier. -/
inductive Round where
  | split (old new : Nat)
  | going (frontier : Frontier)

/-- Whether a search has met the one from the other end on a diagonal. The latter is
`others` edits far. -/
def meets (as bs : Array String) (others : Int) (diagonal : Int) (f g : Frontier) : Bool :=
  let delta : Int := (as.size : Int) - bs.size
  decide (((diagonal - delta).natAbs : Int) ≤ others) &&
    decide (as.size ≤ f.count diagonal + g.count (delta - diagonal))

/-- One round from the front. It meets the search from the back only if the lengths
differ by an odd number. -/
def forwardRound (old new : Array String) (edits : Nat) (back : Frontier) :
    List Int → Frontier → Round
  | [], front => .going front
  | k :: ks, front =>
    let (x, n) := advance front old new edits k
    let front := front.reach k (x + n)
    if (old.size + new.size) % 2 = 1 && meets old new ((edits : Int) - 1) k front back then
      .split x ((x : Int) - k).toNat
    else forwardRound old new edits back ks front

/-- One round from the back, on the two lists backwards. It meets the search from the
front only if the lengths differ by an even number. -/
def backwardRound (old new : Array String) (edits : Nat) (front : Frontier) :
    List Int → Frontier → Round
  | [], back => .going back
  | k :: ks, back =>
    let (x, n) := advance back old new edits k
    let back := back.reach k (x + n)
    if (old.size + new.size) % 2 = 0 && meets old new edits k back front then
      .split (old.size - (x + n)) (new.size - (((x : Int) - k).toNat + n))
    else backwardRound old new edits front ks back

/-- Two lists, forwards and backwards. -/
structure Sides where
  old : Array String
  new : Array String
  oldBackwards : Array String
  newBackwards : Array String

def Sides.ofLists (old new : List String) : Sides :=
  ⟨old.toArray, new.toArray, old.reverse.toArray, new.reverse.toArray⟩

/-- The rounds from `edits` edits on, `rounds` at most. -/
def search (s : Sides) (edits : Nat) (front back : Frontier) : Nat → Option (Nat × Nat)
  | 0 => none
  | rounds + 1 =>
    match forwardRound s.old s.new edits back (diagonals edits) front with
    | .split i j => some (i, j)
    | .going front =>
      match backwardRound s.oldBackwards s.newBackwards edits front (diagonals edits) back with
      | .split i j => some (i, j)
      | .going back => search s (edits + 1) front back rounds

/-- Where to split both lists so that shortest scripts of the halves make a shortest
script. -/
def middle? (old new : List String) : Option (Nat × Nat) :=
  let rounds := (old.length + new.length + 1) / 2 + 1
  search (.ofLists old new) 0 (.start rounds) (.start rounds) rounds

/-! ## The script -/

/-- A run, unless it is empty. -/
def runOf (action : Action) (i j length : Nat) : List Run :=
  if length = 0 then [] else [⟨action, i, j, length⟩]

/-- The script between two lists that stand at these places of larger ones. What they
have in common at either end is kept. -/
def scriptFrom (i j : Nat) (old new : List String) : List Run :=
  let front := commonFront old new
  let old' := old.drop front
  let new' := new.drop front
  let back := commonBack old' new'
  let oldCore := old'.take (old'.length - back)
  let newCore := new'.take (new'.length - back)
  let i' := i + front
  let j' := j + front
  let replaced := runOf .delete i' j' oldCore.length ++ runOf .insert i' j' newCore.length
  let core :=
    if oldCore.isEmpty ∨ newCore.isEmpty then replaced
    else
      match middle? oldCore newCore with
      | none => replaced
      | some (x, y) =>
        if smaller : (oldCore.take x).length + (newCore.take y).length < old.length + new.length ∧
            (oldCore.drop x).length + (newCore.drop y).length < old.length + new.length then
          scriptFrom i' j' (oldCore.take x) (newCore.take y) ++
            scriptFrom (i' + x) (j' + y) (oldCore.drop x) (newCore.drop y)
        else replaced
  runOf .keep i j front ++ core ++
    runOf .keep (i' + oldCore.length) (j' + newCore.length) back
termination_by old.length + new.length
decreasing_by
  · exact smaller.1
  · exact smaller.2

/-- The script that turns one list of lines into another. -/
def script (old new : List String) : List Run :=
  scriptFrom 0 0 old new

end AllocGuard.Diff
