import AllocGuard.Diff.Script

/-! Runs of a script can slide past lines that are kept. Deletions and insertions are
moved up and then down as far as they go, and merged with what they meet. -/
namespace AllocGuard.Diff

namespace Run

def isEmpty (r : Run) : Bool :=
  r.length == 0

/-- The lines of the old list that a run covers. -/
def oldLines (r : Run) (old : List String) : List String :=
  if r.action = .insert then [] else (old.drop r.old).take r.length

/-- The lines of the new list that a run covers. -/
def newLines (r : Run) (new : List String) : List String :=
  if r.action = .delete then [] else (new.drop r.new).take r.length

/-- The run with `n` more lines in front. -/
def growUp (r : Run) (n : Nat) : Run :=
  { r with old := r.old - n, new := r.new - n, length := r.length + n }

/-- The run with `n` more lines at its end. -/
def growDown (r : Run) (n : Nat) : Run :=
  { r with length := r.length + n }

def slideUp (r : Run) (n : Nat) : Run :=
  { r with old := r.old - n, new := r.new - n }

def slideDown (r : Run) (n : Nat) : Run :=
  { r with old := r.old + n, new := r.new + n }

/-- The run without its last `n` lines. -/
def dropEnd (r : Run) (n : Nat) : Run :=
  { r with length := r.length - n }

/-- The run without its first `n` lines. -/
def dropFront (r : Run) (n : Nat) : Run :=
  { r with old := r.old + n, new := r.new + n, length := r.length - n }

end Run

/-- A run in a script: the runs above it, nearest first, and the runs below it. -/
structure Focus where
  above : List Run
  run : Run
  below : List Run

/-- What moving over runs costs at most. -/
def weight (runs : List Run) : Nat :=
  runs.foldr (fun r rest => r.length + 1 + rest) 0

@[simp] theorem weight_cons (r : Run) (runs : List Run) :
    weight (r :: runs) = r.length + 1 + weight runs := rfl

/-- The runs below when `n` kept lines join them at the top. -/
def keepBelow (kept run : Run) (n : Nat) : List Run → List Run
  | next :: rest =>
    if next.action = .keep then next.growUp n :: rest
    else ⟨.keep, kept.old + kept.length - n, run.new + run.length - n, n⟩ :: next :: rest
  | [] => [⟨.keep, kept.old + kept.length - n, run.new + run.length - n, n⟩]

/-- The runs above when `n` kept lines join them at the bottom. -/
def keepAbove (kept run : Run) (n : Nat) : List Run → List Run
  | prev :: rest =>
    if prev.action = .keep then prev.growDown n :: rest
    else ⟨.keep, kept.old, run.new, n⟩ :: prev :: rest
  | [] => [⟨.keep, kept.old, run.new, n⟩]

/-- The run moved up as far as it goes. An insertion slides past kept lines that end as
it ends, runs of the other action are passed, and runs of the same action merged. -/
def moveUp (old new : List String) (above : List Run) (run : Run) (below : List Run) : Focus :=
  match above with
  | [] => ⟨[], run, below⟩
  | prev :: rest =>
    if prev.action = .keep then
      let n := min (commonBack (prev.oldLines old) (run.newLines new)) prev.length
      if 0 < n then
        let prev' := prev.dropEnd n
        let below := keepBelow prev run n below
        if prev'.isEmpty then moveUp old new rest (run.slideUp n) below
        else moveUp old new (prev' :: rest) (run.slideUp n) below
      else if prev.isEmpty then moveUp old new rest run below
      else ⟨prev :: rest, run, below⟩
    else if prev.action = run.action then
      moveUp old new rest (prev.growDown run.length) below
    else moveUp old new rest run (prev :: below)
termination_by weight above
decreasing_by
  all_goals simp only [weight_cons, Run.dropEnd]
  all_goals omega

/-- The run moved down as far as it goes, by the same rules. -/
def moveDown (old new : List String) (above : List Run) (run : Run) (below : List Run) : Focus :=
  match below with
  | [] => ⟨above, run, []⟩
  | next :: rest =>
    if next.action = .keep then
      let n := min (commonFront (next.oldLines old) (run.newLines new)) next.length
      if 0 < n then
        let next' := next.dropFront n
        let above := keepAbove next run n above
        if next'.isEmpty then moveDown old new above (run.slideDown n) rest
        else moveDown old new above (run.slideDown n) (next' :: rest)
      else if next.isEmpty then moveDown old new above run rest
      else ⟨above, run, next :: rest⟩
    else if next.action = run.action then
      moveDown old new above (run.growDown next.length) rest
    else moveDown old new (next :: above) run rest
termination_by weight below
decreasing_by
  all_goals simp only [weight_cons, Run.dropFront]
  all_goals omega

/-- Every run of an action moved, from the top down. Moving makes at most one new run,
so `steps` only has to be large. -/
def moveAll (old new : List String) (action : Action) :
    Nat → List Run → List Run → List Run
  | 0, above, below => above.reverse ++ below
  | _, above, [] => above.reverse
  | steps + 1, above, run :: below =>
    if run.action = action then
      let up := moveUp old new above run below
      let down := moveDown old new up.above up.run up.below
      moveAll old new action steps (down.run :: down.above) down.below
    else moveAll old new action steps (run :: above) below

/-- The script with first its deletions and then its insertions moved. -/
def compact (old new : List String) (runs : List Run) : List Run :=
  let steps := 4 * (old.length + new.length + runs.length + 1)
  let runs := moveAll old new .delete steps [] runs
  moveAll old new .insert steps [] runs

end AllocGuard.Diff
