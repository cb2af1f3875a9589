import AllocGuard.Proofs.InPlaceRuns
import AllocGuard.Proofs.PathLocations

/-! Runs that write below another directory. Of the way to a file, its output keeps the name alone if
the file was named itself, and the way down from the named directory if it was found below one. Two
files that are named by different paths can therefore have the same place for their output. They are
written one after the other, and only the text of the last one stays. -/
namespace AllocGuard

namespace Command

open FileTree Surroundings

variable {o : Options} {outputs : List (Location × String)} {directory : String} {location : Location}
  {settings : Settings} {t : FileTree} {p : Progress}

/-! ## One output after the other -/

/-- What is written for a source, and where. -/
def output? (settings : Settings) (t : FileTree) (directory : String) (source : Source) :
    Option (Location × String) :=
  (t.text? source.location).map fun text =>
    (locationOf (Path.join directory source.relative), (harden settings text).text)

/-- A file that has not failed was text, and its output has been written. -/
theorem process_file_below (below : o.outDir = some directory) (elsewhere : o.inPlace = false) {source : Source}
    (complete : (processFile o settings t p source).isComplete = true) :
    p.isComplete = true ∧ ∃ location text, output? settings t directory source = some (location, text) ∧
      (processFile o settings t p source).tree = p.tree.write location text := by
  revert complete
  unfold processFile hardened? output?
  cases t.text? source.location with
  | none =>
    intro failed
    cases failed
  | some text =>
    simp only [Option.map_some, emit, elsewhere, below, Bool.false_eq_true, if_false]
    cases created : (p.print (diffText o source text (harden settings text))).tree.create?
        (Path.join directory source.relative) (harden settings text).text with
    | none =>
      intro failed
      cases failed
    | some tree =>
      intro complete
      exact ⟨complete, _, _, rfl, create_written created⟩

/-- The last output that goes to a location is what stands there afterwards. -/
theorem process_below (below : o.outDir = some directory) (elsewhere : o.inPlace = false) (sources : List Source)
    (complete : (sources.foldl (processFile o settings t) p).isComplete = true) :
    p.isComplete = true ∧ ∃ outputs, sources.mapM (output? settings t directory) = some outputs ∧
      ∀ location, (sources.foldl (processFile o settings t) p).tree.content? location =
        ((outputs.reverse.lookup location).map Content.text).or (p.tree.content? location) := by
  induction sources generalizing p with
  | nil => exact ⟨complete, [], rfl, fun location => rfl⟩
  | cons source sources ih =>
    obtain ⟨complete, outputs, others, content⟩ := ih complete
    obtain ⟨complete, target, text, here, tree⟩ := process_file_below below elsewhere complete
    refine ⟨complete, (target, text) :: outputs, ?_, fun location => ?_⟩
    · rw [List.mapM_cons, here, others]
      rfl
    · refine (content location).trans ?_
      rw [tree, content_write, List.reverse_cons, List.lookup_append, List.lookup_cons, List.lookup_nil]
      cases outputs.reverse.lookup location with
      | some later => rfl
      | none =>
        by_cases same : location = target
        · simp [same]
        · simp [same, beq_false_of_ne same]

/-- Of the outputs for a location, one is the last. -/
theorem last_output {text : String} (inside : (location, text) ∈ outputs) :
    ∃ later, (location, later) ∈ outputs ∧ outputs.reverse.lookup location = some later := by
  have there : (outputs.reverse.lookup location).isSome = true :=
    List.lookup_isSome_iff.2 ⟨_, List.mem_reverse.2 inside, beq_self_eq_true location⟩
  obtain ⟨later, stands⟩ := Option.isSome_iff_exists.1 there
  obtain ⟨front, back, split, _⟩ := List.lookup_eq_some_iff.1 stands
  refine ⟨later, List.mem_reverse.1 ?_, stands⟩
  rw [split]
  exact List.mem_append_right _ List.mem_cons_self

theorem no_output (outside : ∀ text, (location, text) ∉ outputs) : outputs.reverse.lookup location = none := by
  apply List.lookup_eq_none_iff.2
  intro entry inside
  have apart : location ≠ entry.1 := by
    rintro rfl
    exact outside entry.2 (List.mem_reverse.1 inside)
  exact bne_iff_ne.2 apart

/-- What is written, and where, in terms of what the paths of a run stand for. -/
theorem mem_outputs {s : Surroundings} {t : FileTree} (wellFormed : t.isWellFormed = true) (walksDown : s.WalksDown t)
    {paths : List String} {sources : List Source} (found : sources? s t paths = some sources) {settings : Settings}
    {directory : String} {outputs : List (Location × String)}
    (written : sources.mapM (output? settings t directory) = some outputs) {location : Location} {text : String} :
    (location, text) ∈ outputs ↔
      ∃ path ∈ paths, ∃ file names original, s.Finds t path file names ∧ t.text? file = some original ∧
        location = locationOf directory ++ names ∧ text = (harden settings original).text := by
  rw [mem_collected written]
  constructor
  · rintro ⟨source, inside, made⟩
    obtain ⟨path, member, names, finds, relative⟩ := (mem_sources found).1 ⟨source, inside, rfl, rfl⟩
    obtain ⟨original, original_read, same⟩ := Option.map_eq_some_iff.1 made
    obtain ⟨rfl, rfl⟩ := Prod.mk.inj same
    refine ⟨path, member, source.location, names, original, finds, original_read, ?_, rfl⟩
    rw [relative, finds.target wellFormed walksDown]
  · rintro ⟨path, member, file, names, original, finds, readable, rfl, rfl⟩
    obtain ⟨source, inside, rfl, relative⟩ := (mem_sources found).2 ⟨path, member, names, finds, rfl⟩
    refine ⟨source, inside, ?_⟩
    rw [output?, readable, Option.map_some, relative, finds.target wellFormed walksDown]

/-- Two files that are found in the order of their paths are dealt with in this order. -/
theorem run_of_pair (s : Surroundings) (o : Options) (t : FileTree) (settings : Settings)
    (found : List (List Source)) {first second : Source} (usable : settings? s o t = some settings)
    (made : o.paths.mapM (sourcesOf? s t) = some found) (pair : found.flatten = [first, second])
    (order : Path.precedes (Path.components first.path) (Path.components second.path) = true) :
    (run s o t).tree = (process o settings t [first, second]).tree ∧
      (run s o t).exitCode = if (process o settings t [first, second]).isComplete then 0 else 1 := by
  have sorted : sources? s t o.paths = some [first, second] := by
    unfold sources?
    rw [made, Option.bind_eq_bind, Option.bind_some, pair]
    simp [List.mergeSort, order]
  unfold run
  rw [usable, sorted]
  exact ⟨rfl, rfl⟩

/-- A run that writes below a directory and succeeds has hardened every file that its paths stand for,
and has written it below the directory, at the names that it keeps. No output is lost exactly if the
files that keep the same names have the same output. Files that one and the same path stands for never
keep the same names, so it takes two paths to lose an output. Outside of these places nothing has
changed. All of this holds however directories are walked, as long as a walk stays below its
directory, and however settings are read. -/
theorem outputs_kept_iff {s : Surroundings} {o : Options} {directory : String} {t : FileTree}
    (below : o.outDir = some directory) (elsewhere : o.inPlace = false)
    (wellFormed : t.isWellFormed = true) (walksDown : s.WalksDown t)
    (succeeds : (run s o t).exitCode = 0) :
    ∃ settings, settings? s o t = some settings ∧
      (∀ path ∈ o.paths, ∀ file names, s.Finds t path file names →
        (t.text? file).isSome = true ∧
          ((run s o t).tree.text? (locationOf directory ++ names)).isSome = true) ∧
      ((∀ path ∈ o.paths, ∀ file names text, s.Finds t path file names → t.text? file = some text →
          (run s o t).tree.text? (locationOf directory ++ names) = some (harden settings text).text) ↔
        ∀ path ∈ o.paths, ∀ path' ∈ o.paths, ∀ file file' names text text',
          s.Finds t path file names → s.Finds t path' file' names → t.text? file = some text →
          t.text? file' = some text' → (harden settings text).text = (harden settings text').text) ∧
      (∀ path file file' names, s.Finds t path file names → s.Finds t path file' names → file = file') ∧
      (∀ location, (∀ path ∈ o.paths, ∀ file names, s.Finds t path file names →
          location ≠ locationOf directory ++ names) →
        (run s o t).tree.content? location = t.content? location) := by
  have started : ¬ Refused s o t := by
    intro refused
    rw [run_refused refused] at succeeds
    cases succeeds
  obtain ⟨settings, sources, usable, found, tree, exit⟩ := run_started started
  have complete : (process o settings t sources).isComplete = true := by
    rw [exit] at succeeds
    by_contra failed
    rw [if_neg failed] at succeeds
    cases succeeds
  obtain ⟨_, outputs, written, content⟩ := process_below below elsewhere sources complete
  have placed {location : Location} {text : String} :=
    @mem_outputs s t wellFormed walksDown o.paths sources found settings directory outputs written location
      text
  have final (location : Location) : (run s o t).tree.content? location =
      ((outputs.reverse.lookup location).map Content.text).or (t.content? location) := by
    rw [tree]
    exact content location
  have last {location : Location} {text : String} (inside : (location, text) ∈ outputs) :
      ∃ later, (location, later) ∈ outputs ∧ (run s o t).tree.text? location = some later := by
    obtain ⟨later, wins, stands⟩ := last_output inside
    refine ⟨later, wins, text_iff.2 ?_⟩
    rw [final, stands]
    rfl
  refine ⟨settings, usable, ?_, ⟨?_, ?_⟩, fun path file file' names => Finds.file_unique, ?_⟩
  · intro path member file names finds
    obtain ⟨source, inside, rfl, _⟩ := (mem_sources found).2 ⟨path, member, names, finds, rfl⟩
    obtain ⟨output, made⟩ := collected_all written inside
    obtain ⟨text, readable, _⟩ := Option.map_eq_some_iff.1 made
    obtain ⟨later, _, stands⟩ := last (placed.2 ⟨path, member, _, names, text, finds, readable, rfl, rfl⟩)
    rw [readable, stands]
    exact ⟨rfl, rfl⟩
  · intro kept path member path' member' file file' names text text' finds finds' readable readable'
    have here := kept path member file names text finds readable
    have there := kept path' member' file' names text' finds' readable'
    exact Option.some.inj (here.symm.trans there)
  · intro agree path member file names text finds readable
    obtain ⟨later, wins, stands⟩ := last (placed.2 ⟨path, member, file, names, text, finds, readable, rfl, rfl⟩)
    obtain ⟨path', member', file', names', text', finds', readable', same, rfl⟩ := placed.1 wins
    obtain rfl := List.append_cancel_left same
    rw [stands, agree path member path' member' file file' names text text' finds finds' readable readable']
  · intro location outside
    rw [final, no_output fun text inside => ?_]
    · rfl
    · obtain ⟨path, member, file, names, _, finds, _, same, _⟩ := placed.1 inside
      exact outside path member file names finds same

/-- The plain walk stays below its directory. -/
theorem plain_walks_down (t : FileTree) : plainSurroundings.WalksDown t := by
  intro location entries walks names entry name head
  cases walks
  obtain ⟨file, _, way⟩ := mem_files_below.1 entry
  obtain ⟨_, first, here, inward⟩ := below_iff.1 way
  rw [Option.mem_unique head here]
  exact inward

theorem outputs_kept_iff_walked :
    let t : FileTree := ⟨[(["a", "b", "x.c"], .text ""),
      (["a", "x.c"], .text "void main()\x7bmalloc(1);\x7d")], []⟩
    let s := plainSurroundings
    let o : Options := { paths := ["a"], outDir := some "out" }
    t.isWellFormed = true ∧ s.WalksDown t ∧ (run s o t).exitCode = 0 ∧
      ∃ settings, settings? s o t = some settings ∧
        ∀ file names text, s.Finds t "a" file names → t.text? file = some text →
          (run s o t).tree.text? (locationOf "out" ++ names) = some (harden settings text).text := by
  intro t s o
  have wellFormed : t.isWellFormed = true := by decide +kernel
  have walksDown := plain_walks_down t
  have succeeds : (run s o t).exitCode = 0 :=
    (run_of_pair s o t {}
      [[⟨"a/b/x.c", ["a", "b", "x.c"], "b/x.c"⟩, ⟨"a/x.c", ["a", "x.c"], "x.c"⟩]] rfl (by decide +kernel)
      rfl (by decide +kernel)).2.trans (by decide +kernel)
  obtain ⟨settings, usable, _, kept, unique, _⟩ :=
    outputs_kept_iff (s := s) (o := o) rfl rfl wellFormed walksDown succeeds
  refine ⟨wellFormed, walksDown, succeeds, settings, usable, kept.2 ?_ "a" (List.mem_singleton_self _)⟩
  intro path member path' member' file file' names text text' finds finds' readable readable'
  obtain rfl := List.mem_singleton.1 member
  obtain rfl := List.mem_singleton.1 member'
  obtain rfl := unique _ file file' names finds finds'
  obtain rfl := Option.some.inj (readable.symm.trans readable')
  rfl

/-- Of two files with the same name that are named by two paths, the output of the second alone is
kept, whatever the surroundings are. -/
theorem second_output_replaces_first :
    let t : FileTree := ⟨[(["a", "x.c"], .text "void main()\x7bmalloc(1);\x7d"),
      (["b", "x.c"], .text "void main()\x7bcalloc(1,1);\x7d")], []⟩
    t.isWellFormed = true ∧ ∀ s : Surroundings,
      let after := run s { paths := ["a/x.c", "b/x.c"], outDir := some "out" } t
      after.exitCode = 0 ∧
        t.changes after.tree =
          [(["out", "x.c"], "void main()\x7bif (calloc(1,1) == NULL) return;\x7d")] := by
  intro t
  refine ⟨by decide +kernel, fun s => ?_⟩
  obtain ⟨tree, exit⟩ := run_of_pair s { paths := ["a/x.c", "b/x.c"], outDir := some "out" } t {}
    [[⟨"a/x.c", ["a", "x.c"], "x.c"⟩], [⟨"b/x.c", ["b", "x.c"], "x.c"⟩]] rfl rfl rfl (by decide +kernel)
  refine ⟨exit.trans (by decide +kernel), ?_⟩
  rw [tree]
  decide +kernel

end Command

end AllocGuard
