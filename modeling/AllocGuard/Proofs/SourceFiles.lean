import AllocGuard.Command.Run

/-! The files that a run works on, and what writing a file does to a tree. A path stands for the
file at its location, or for the sources of C that a walk from it comes to. What a run reads, and
whether it starts at all, is said here of the tree and its surroundings alone, without the list that
the run makes of its files. -/
namespace AllocGuard

namespace FileTree

variable {t : FileTree} {location file names : Location}

/-! ## Reading and writing -/

theorem lookup_rewritten (files : List (Location × Content)) (location probe : Location) (text : String) :
    (files.map fun entry =>
        if entry.1 = location then (entry.1, Content.text text) else entry).lookup probe =
      if probe = location then (files.lookup probe).map fun _ => .text text else files.lookup probe := by
  induction files with
  | nil => simp
  | cons entry rest ih =>
    rw [List.map_cons]
    by_cases here : entry.1 = location
    · rw [if_pos here, List.lookup_cons, List.lookup_cons, ih]
      by_cases found : probe = entry.1
      · simp [found, here]
      · simp [beq_false_of_ne found]
    · rw [if_neg here, List.lookup_cons, List.lookup_cons, ih]
      by_cases found : probe = entry.1
      · simp [found, here]
      · simp [beq_false_of_ne found]

/-- A tree is its contents: writing a file changes what stands at its location and nothing else. -/
theorem content_write (t : FileTree) (location probe : Location) (text : String) :
    (t.write location text).content? probe =
      if probe = location then some (.text text) else t.content? probe := by
  unfold write
  split
  · rename_i there
    refine (lookup_rewritten t.files location probe text).trans ?_
    split
    · rename_i here
      obtain ⟨content, found⟩ := Option.isSome_iff_exists.1 there
      rw [content?, ← here] at found
      rw [found, Option.map_some]
    · rfl
  · rename_i missing
    have none : t.files.lookup location = none := Option.not_isSome_iff_eq_none.1 missing
    show (t.files ++ [(location, Content.text text)]).lookup probe = _
    rw [List.lookup_append, List.lookup_cons, List.lookup_nil]
    by_cases here : probe = location
    · simp [here, none]
    · simp [here, beq_false_of_ne here, content?]

theorem directories_write (t : FileTree) (location : Location) (text : String) :
    (t.write location text).directories = t.directories := by
  unfold write
  split <;> rfl

theorem text_iff {text : String} : t.text? file = some text ↔ t.content? file = some (.text text) := by
  unfold text?
  split
  · rename_i found
    rw [found, Option.some.injEq, Option.some.injEq, Content.text.injEq]
  · rename_i other
    exact iff_of_false (Option.some_ne_none text).symm (other text)

theorem is_file_iff : t.isFile file = true ↔ ∃ content, (file, content) ∈ t.files := by
  rw [isFile, content?, Option.isSome_iff_exists]
  constructor
  · rintro ⟨content, found⟩
    obtain ⟨front, back, split, _⟩ := List.lookup_eq_some_iff.1 found
    exact ⟨content, by simp [split]⟩
  · rintro ⟨content, member⟩
    rw [← Option.isSome_iff_exists, List.lookup_isSome_iff]
    exact ⟨(file, content), member, beq_self_eq_true file⟩

/-! ## Locations below each other -/

theorem below_iff :
    below? location file = some names ↔
      file = location ++ names ∧ ∃ name ∈ names.head?, isOutward name = false := by
  fun_induction below? location file with
  | case1 => grind
  | case2 name rest out => grind
  | case3 name rest inside => grind
  | case4 => simp
  | case5 a as bs ih => simp [ih]
  | case6 a as b bs other =>
    constructor
    · intro hit
      cases hit
    · rintro ⟨same, _⟩
      exact absurd (List.cons.inj same).1.symm other

/-- What is below a location makes it a directory. -/
theorem is_directory_of_below (there : t.isFile file = true ∨ file ∈ t.directories)
    (below : below? location file = some names) : t.isDirectory location = true := by
  have some : (below? location file).isSome = true := by rw [below, Option.isSome_some]
  unfold isDirectory
  rw [Bool.or_eq_true, Bool.or_eq_true]
  rcases there with there | there
  · obtain ⟨content, member⟩ := is_file_iff.1 there
    exact .inl (.inr (List.any_eq_true.2 ⟨(file, content), member, some⟩))
  · exact .inr (List.any_eq_true.2 ⟨file, there, some⟩)

/-! ## What a path stands for -/

/-- Nothing stands at a path. -/
def IsMissing (t : FileTree) (path : String) : Prop :=
  ∀ location, t.locate? path = some location →
    t.isFile location = false ∧ t.isDirectory location = false

theorem mem_files_below :
    names ∈ t.filesBelow location ↔
      ∃ file, t.isFile file = true ∧ below? location file = some names := by
  simp only [filesBelow, List.mem_filterMap, Prod.exists, is_file_iff]
  exact exists_congr fun file => exists_and_right

end FileTree

namespace Surroundings

open FileTree

/-- A directory stands at a path, and the walk of it fails. -/
def WalkFails (s : Surroundings) (t : FileTree) (path : String) : Prop :=
  ∃ location, t.locate? path = some location ∧ t.isFile location = false ∧
    t.isDirectory location = true ∧ s.walk t location = none

/-- What a walk of a directory comes to is below that directory. -/
def WalksDown (s : Surroundings) (t : FileTree) : Prop :=
  ∀ location entries, s.walk t location = some entries → ∀ names ∈ entries, ∀ name ∈ names.head?,
    isOutward name = false

/-- The file is one that a path stands for, and `names` is what its output keeps of the way to it:
its own name if the path is that of the file, and the way down from the directory at the path if a
walk of that directory came to the file. -/
inductive Finds (s : Surroundings) (t : FileTree) (path : String) : Location → Location → Prop
  | itself {location : Location} (located : t.locate? path = some location)
      (isFile : t.isFile location = true) : Finds s t path location location.getLast?.toList
  | walked {location names : Location} {entries : List Location}
      (located : t.locate? path = some location) (notFile : t.isFile location = false)
      (directory : t.isDirectory location = true) (walks : s.walk t location = some entries)
      (entry : names ∈ entries) (isFile : t.isFile (location ++ names) = true)
      (source : (names.getLast?.map Path.isSource).getD false = true) :
      Finds s t path (location ++ names) names

end Surroundings

namespace Command

open FileTree Surroundings

variable {s : Surroundings} {α β : Type} {o : Options} {t : FileTree} {path relative : String} {paths : List String}
  {items : List α} {results : List β} {sources : List Source} {file : Location}

/-- A path cannot be used: nothing stands there, or the walk of the directory that stands there
fails. -/
def PathUnusable (s : Surroundings) (t : FileTree) (path : String) : Prop :=
  t.IsMissing path ∨ s.WalkFails t path

theorem found_usable {names : Location} (finds : s.Finds t path file names) : ¬ PathUnusable s t path := by
  rintro (missing | ⟨location, located', notFile', _, fails⟩)
  · cases finds with
    | itself located isFile =>
      rw [(missing _ located).1] at isFile
      cases isFile
    | walked located _ directory _ _ _ _ =>
      rw [(missing _ located).2] at directory
      cases directory
  · cases finds with
    | itself located isFile =>
      rw [Option.some.inj (located.symm.trans located'), notFile'] at isFile
      cases isFile
    | walked located _ _ walks _ _ _ =>
      rw [Option.some.inj (located.symm.trans located'), fails] at walks
      cases walks

/-- The path that the output of a found file gets, as it is written. -/
def relativePath (t : FileTree) (path : String) (names : Location) : String :=
  if (t.locate? path).any t.isFile then (Path.fileName? path).getD path else "/".intercalate names

theorem sources_of_unusable : sourcesOf? s t path = none ↔ PathUnusable s t path := by
  unfold sourcesOf? PathUnusable IsMissing WalkFails
  cases t.locate? path with
  | none => simp
  | some location =>
    simp only [Option.bind_eq_bind, Option.bind_some, Option.some.injEq, forall_eq', exists_eq_left']
    cases t.isFile location with
    | true => simp
    | false =>
      cases t.isDirectory location with
      | false => simp
      | true => cases s.walk t location <;> simp

/-- The list that is made for a path holds the files that it stands for. -/
theorem mem_sources_of {found : List Source} (made : sourcesOf? s t path = some found) :
    (∃ source ∈ found, source.location = file ∧ source.relative = relative) ↔
      ∃ names, s.Finds t path file names ∧ relative = relativePath t path names := by
  unfold sourcesOf? at made
  unfold relativePath
  cases located : t.locate? path with
  | none =>
    rw [located] at made
    cases made
  | some location =>
    simp only [located, Option.bind_eq_bind, Option.bind_some] at made
    rw [Option.any_some]
    cases isFile : t.isFile location with
    | true =>
      rw [isFile, if_pos rfl] at made
      cases made
      simp only [if_true]
      constructor
      · rintro ⟨source, member, rfl, rfl⟩
        obtain rfl := List.mem_singleton.1 member
        exact ⟨_, .itself located isFile, rfl⟩
      · rintro ⟨names, finds, rfl⟩
        refine ⟨_, List.mem_singleton_self _, ?_, rfl⟩
        cases finds with
        | itself there _ => exact Option.some.inj (located.symm.trans there)
        | walked there notFile _ _ _ _ _ =>
          rw [← Option.some.inj (located.symm.trans there), isFile] at notFile
          cases notFile
    | false =>
      rw [isFile, if_neg Bool.false_ne_true] at made
      simp only [Bool.false_eq_true, if_false]
      split at made
      · rename_i directory
        obtain ⟨entries, walks, kept⟩ := Option.bind_eq_some_iff.1 made
        cases kept
        constructor
        · rintro ⟨source, member, rfl, rfl⟩
          obtain ⟨names, entry, kept⟩ := List.mem_filterMap.1 member
          split at kept
          · rename_i chosen
            obtain ⟨there, source⟩ := (Bool.and_eq_true _ _).mp chosen
            cases kept
            exact ⟨names, .walked located isFile directory walks entry there source, rfl⟩
          · cases kept
        · rintro ⟨names, finds, rfl⟩
          cases finds with
          | itself there isFile' =>
            rw [← Option.some.inj (located.symm.trans there), isFile] at isFile'
            cases isFile'
          | @walked location' _ entries' there _ _ walks' entry isFile' source =>
            obtain rfl : location = location' := Option.some.inj (located.symm.trans there)
            obtain rfl : entries = entries' := Option.some.inj (walks.symm.trans walks')
            refine ⟨⟨Path.join path ("/".intercalate names), location ++ names, "/".intercalate names⟩,
              List.mem_filterMap.2 ⟨names, entry, ?_⟩, rfl, rfl⟩
            exact if_pos ((Bool.and_eq_true _ _).mpr ⟨isFile', source⟩)
      · cases made

/-- What has been collected from a list comes from its members, one by one. -/
theorem mem_collected {f : α → Option β} (made : items.mapM f = some results) {result : β} :
    result ∈ results ↔ ∃ item ∈ items, f item = some result := by
  induction items generalizing results with
  | nil =>
    rw [List.mapM_nil] at made
    cases made
    simp
  | cons item items ih =>
    rw [List.mapM_cons] at made
    simp only [Option.bind_eq_bind, Option.bind_eq_some_iff, Option.pure_def, Option.some.injEq] at made
    obtain ⟨first, here, later, others, rfl⟩ := made
    simp only [List.mem_cons, or_and_right, exists_or, exists_eq_left, here, Option.some.injEq, ih others]
    rw [eq_comm]

/-- What has been collected from a list has a result for each of its members. -/
theorem collected_all {f : α → Option β} (made : items.mapM f = some results) {item : α} (member : item ∈ items) :
    ∃ result, f item = some result := by
  induction items generalizing results with
  | nil => cases member
  | cons first items ih =>
    rw [List.mapM_cons] at made
    simp only [Option.bind_eq_bind, Option.bind_eq_some_iff, Option.pure_def, Option.some.injEq] at made
    obtain ⟨result, here, later, others, _⟩ := made
    rcases List.mem_cons.1 member with rfl | member
    · exact ⟨result, here⟩
    · exact ih others member

/-- A run has no files to work on exactly if one of its paths cannot be used. -/
theorem sources_unusable : sources? s t paths = none ↔ ∃ path ∈ paths, PathUnusable s t path := by
  unfold sources?
  simp only [Option.bind_eq_bind, Option.bind_eq_none_iff, Option.pure_def, reduceCtorEq, imp_false]
  induction paths with
  | nil => simp
  | cons path paths ih =>
    rw [List.mapM_cons]
    cases first : sourcesOf? s t path with
    | none =>
      have unusable := sources_of_unusable.1 first
      simp only [Option.bind_eq_bind, Option.bind_none, reduceCtorEq, not_false_eq_true, implies_true, true_iff]
      exact ⟨path, List.mem_cons_self, unusable⟩
    | some found =>
      have usable : ¬ PathUnusable s t path := fun unusable => by
        rw [sources_of_unusable.2 unusable] at first
        cases first
      simp only [List.mem_cons, or_and_right, exists_or, exists_eq_left, usable, false_or, ← ih]
      cases paths.mapM (sourcesOf? s t) <;> simp

/-- The files of a run are those that its paths stand for. -/
theorem mem_sources (made : sources? s t paths = some sources) :
    (∃ source ∈ sources, source.location = file ∧ source.relative = relative) ↔
      ∃ path ∈ paths, ∃ names, s.Finds t path file names ∧ relative = relativePath t path names := by
  unfold sources? at made
  simp only [Option.bind_eq_bind, Option.bind_eq_some_iff, Option.pure_def, Option.some.injEq] at made
  obtain ⟨found, lists, rfl⟩ := made
  simp only [List.mem_mergeSort, List.mem_flatten, mem_collected lists]
  constructor
  · rintro ⟨source, ⟨list, ⟨path, named, made⟩, inside⟩, here⟩
    exact ⟨path, named, (mem_sources_of made).1 ⟨source, inside, here⟩⟩
  · rintro ⟨path, named, names, finds, same⟩
    obtain ⟨list, made⟩ := Option.ne_none_iff_exists'.1 fun unusable =>
      found_usable finds (sources_of_unusable.1 unusable)
    obtain ⟨source, inside, here⟩ := (mem_sources_of made).2 ⟨names, finds, same⟩
    exact ⟨source, ⟨list, ⟨path, named, made⟩, inside⟩, here⟩

theorem mem_source_locations (made : sources? s t paths = some sources) :
    file ∈ sources.map Source.location ↔ ∃ path ∈ paths, ∃ names, s.Finds t path file names := by
  rw [List.mem_map]
  constructor
  · rintro ⟨source, inside, here⟩
    obtain ⟨path, named, names, finds, _⟩ := (mem_sources made).1 ⟨source, inside, here, rfl⟩
    exact ⟨path, named, names, finds⟩
  · rintro ⟨path, named, names, finds⟩
    obtain ⟨source, inside, here, _⟩ := (mem_sources made).2 ⟨path, named, names, finds, rfl⟩
    exact ⟨source, inside, here⟩

/-! ## Settings -/

/-- The settings that a run is told to use cannot be used: there is no text at their path, the text
cannot be read as settings, or one of the settings has an error. -/
def SettingsUnusable (s : Surroundings) (o : Options) (t : FileTree) : Prop :=
  ∃ path, o.config = some path ∧
    ∀ location text settings, t.locate? path = some location → t.text? location = some text →
      s.parse text = some settings → settings.error?.isSome = true

theorem settings_unusable : settings? s o t = none ↔ SettingsUnusable s o t := by
  unfold settings? SettingsUnusable
  cases o.config with
  | none => simp
  | some path =>
    simp only [Option.bind_eq_bind, Option.bind_eq_none_iff, Option.bind_eq_some_iff, Option.some.injEq,
      exists_eq_left', forall_exists_index, and_imp]
    constructor
    · intro none location text settings located read parsed
      have refused := none text location located read settings parsed
      split at refused
      · assumption
      · cases refused
    · intro refused text location located read settings parsed
      rw [if_pos (refused location text settings located read parsed)]

/-- A run cannot start: its settings or one of its paths cannot be used. -/
def Refused (s : Surroundings) (o : Options) (t : FileTree) : Prop :=
  SettingsUnusable s o t ∨ ∃ path ∈ o.paths, PathUnusable s t path

/-- A run that cannot start changes nothing, prints nothing and fails. -/
theorem run_refused (refused : Refused s o t) : run s o t = ⟨1, "", t⟩ := by
  unfold run
  rcases refused with unusable | unusable
  · rw [settings_unusable.2 unusable]
  · rw [sources_unusable.2 unusable]
    cases settings? s o t <;> rfl

/-- A run that is not refused has settings and files, and the files decide what it comes to. -/
theorem run_started (started : ¬ Refused s o t) :
    ∃ settings sources, settings? s o t = some settings ∧ sources? s t o.paths = some sources ∧
      (run s o t).tree = (process o settings t sources).tree ∧
      (run s o t).exitCode = if (process o settings t sources).isComplete then 0 else 1 := by
  unfold run
  cases usable : settings? s o t with
  | none => exact absurd (.inl (settings_unusable.1 usable)) started
  | some settings =>
    cases found : sources? s t o.paths with
    | none => exact absurd (.inr (sources_unusable.1 found)) started
    | some sources => exact ⟨settings, sources, rfl, rfl, rfl, rfl⟩

end Command

end AllocGuard
