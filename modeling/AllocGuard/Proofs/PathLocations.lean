import Mathlib.Data.List.TakeWhile
import AllocGuard.Proofs.SourceFiles

/-! Where paths lead in the trees that a file system has. Names that are put together with slashes can
be told apart again, a path below a directory leads on from where the directory is, and a file is
located by its own name, which comes last in the path. -/
namespace AllocGuard

/-! ## Paths -/

namespace Path

/-- A name that can stand in a directory. -/
def isProper (name : String) : Bool :=
  name != "" && name != "." && name != ".." && !name.toList.contains '/'

theorem segments_from_append (part front back : List Char) :
    segmentsFrom part (front ++ '/' :: back) = segmentsFrom part front ++ segmentsFrom [] back := by
  induction front generalizing part with
  | nil => simp [segmentsFrom]
  | cons c front ih =>
    by_cases slash : c = '/'
    · simp [segmentsFrom, slash, ih]
    · simp [segmentsFrom, slash, ih]

theorem segments_from_proper (part cs : List Char) (inside : '/' ∉ cs) :
    segmentsFrom part cs = [String.ofList (part.reverse ++ cs)] := by
  induction cs generalizing part with
  | nil => simp [segmentsFrom]
  | cons c cs ih =>
    have other : c ≠ '/' := fun slash => inside (by simp [slash])
    have later : '/' ∉ cs := fun member => inside (List.mem_cons_of_mem c member)
    simp [segmentsFrom, other, ih _ later]

/-- No segment has a slash in it. -/
theorem segments_from_slash (part cs : List Char) (before : '/' ∉ part) :
    ∀ segment ∈ segmentsFrom part cs, '/' ∉ segment.toList := by
  induction cs generalizing part with
  | nil => simpa [segmentsFrom] using before
  | cons c cs ih =>
    by_cases slash : c = '/'
    · simpa [segmentsFrom, slash, before] using ih [] List.not_mem_nil
    · have longer : '/' ∉ c :: part := by simp [before, Ne.symm slash]
      simpa [segmentsFrom, slash] using ih (c :: part) longer

theorem segments_from_some (part cs : List Char) : segmentsFrom part cs ≠ [] := by
  cases cs with
  | nil => simp [segmentsFrom]
  | cons c cs =>
    by_cases slash : c = '/'
    · simp [segmentsFrom, slash]
    · simp only [segmentsFrom, slash, if_false]
      exact segments_from_some (c :: part) cs

theorem segments_slash (front back : String) : segments (front ++ "/" ++ back) = segments front ++ segments back := by
  simp only [segments, String.toList_append, String.reduceToList, List.append_assoc]
  exact segments_from_append [] front.toList back.toList

theorem segments_proper {name : String} (proper : isProper name = true) : segments name = [name] := by
  have inside : '/' ∉ name.toList := by
    simp only [isProper, Bool.and_eq_true, Bool.not_eq_true', List.contains_eq_mem, decide_eq_false_iff_not] at proper
    exact proper.2
  simp [segments, segments_from_proper [] name.toList inside]

/-- Names that are put together with slashes can be told apart again. -/
theorem segments_intercalate {names : List String} (some : names ≠ [])
    (proper : ∀ name ∈ names, isProper name = true) : segments ("/".intercalate names) = names := by
  induction names with
  | nil => exact absurd rfl some
  | cons name names ih =>
    have here := segments_proper (proper name List.mem_cons_self)
    cases names with
    | nil => simpa using here
    | cons next names =>
      have later := ih (List.cons_ne_nil next names) fun name member =>
        proper name (List.mem_cons_of_mem _ member)
      rw [String.intercalate_cons_cons, segments_slash, here, later]
      rfl

/-- A path whose segments are proper names does not start at the root. -/
theorem relative_of_proper {path : String} (proper : ∀ name ∈ segments path, isProper name = true) :
    isAbsolute path = false := by
  rw [Bool.eq_false_iff]
  intro absolute
  obtain ⟨rest, split⟩ := List.head?_eq_some_iff.1 (beq_iff_eq.1 absolute)
  have empty : "" ∈ segments path := by
    rw [segments, split, segmentsFrom, if_pos rfl]
    exact List.mem_cons_self
  exact absurd (proper _ empty) (by decide)

/-- The last segment, if it is a name, is the name of the file. -/
theorem file_name_last {path last : String} {front : List String} (ends : segments path = front ++ [last])
    (named : last ≠ "" ∧ last ≠ "." ∧ last ≠ "..") : fileName? path = some last := by
  have component (isFirst : Bool) : component? isFirst last = some (.name last) := by
    unfold component?
    split <;> simp_all
  have final : (components path).getLast? = some (.name last) := by
    unfold components
    rw [ends]
    split
    · rw [List.filterMap_append, ← List.cons_append, List.getLast?_append]
      simp [component]
    · cases front with
      | nil => simp [component]
      | cons first front => simp [component]
  rw [fileName?, final]

end Path

namespace FileTree

variable {t : FileTree} {location : Location} {name path segment : String}

/-! ## Locations of paths -/

theorem origin_of_some {directory : String} (some : directory ≠ "") (more : String) :
    origin (directory ++ more) = origin directory := by
  have chars : directory.toList ≠ [] := fun none => some (by rw [← String.toList_inj, none]; rfl)
  obtain ⟨c, rest, split⟩ := List.exists_cons_of_ne_nil chars
  simp [origin, Path.isAbsolute, split]

/-- A path below a directory leads on from where the directory is. -/
theorem location_of_join (directory : String) {relative : String} (inside : Path.isAbsolute relative = false) :
    locationOf (Path.join directory relative) =
      (Path.segments relative).foldl move (locationOf directory) := by
  unfold Path.join locationOf
  split
  · rename_i here
    subst here
    rw [origin, inside, if_neg Bool.false_ne_true]
    rfl
  · rename_i some
    split
    · rename_i slash
      obtain ⟨front, split⟩ := List.getLast?_eq_some_iff.1 (beq_iff_eq.1 slash)
      obtain rfl : directory = String.ofList front ++ "/" := by
        rw [← String.toList_inj, split, String.toList_append, String.toList_ofList]
        rfl
      have ends : Path.segments (String.ofList front ++ "/") =
          Path.segments (String.ofList front) ++ [""] := by
        have cut := Path.segments_slash (String.ofList front) ""
        rwa [String.append_empty] at cut
      rw [origin_of_some some, Path.segments_slash, ends, List.foldl_append, List.foldl_append]
      rfl
    · rw [String.append_assoc, origin_of_some some, ← String.append_assoc, Path.segments_slash, List.foldl_append]

theorem move_proper (proper : Path.isProper name = true) (location : Location) :
    move location name = location ++ [name] := by
  simp only [Path.isProper, Bool.and_eq_true, bne_iff_ne] at proper
  simp [move, proper]

theorem moves_proper {names : List String} (proper : ∀ name ∈ names, Path.isProper name = true)
    (location : Location) : names.foldl move location = location ++ names := by
  induction names generalizing location with
  | nil => simp
  | cons name names ih =>
    rw [List.foldl_cons, move_proper (proper name List.mem_cons_self),
      ih (fun name member => proper name (List.mem_cons_of_mem _ member)), List.append_assoc]
    rfl

/-- Steps that are checked lead where steps that are not checked lead. -/
theorem checked_moves {allowed : Location → Bool} {segments : List String} {start stop : Location}
    (moved : segments.foldlM (fun location segment =>
      if allowed location then some (move location segment) else none) start = some stop) :
    stop = segments.foldl move start := by
  induction segments generalizing start with
  | nil => exact (Option.some.inj moved).symm
  | cons segment segments ih =>
    rw [List.foldlM_cons] at moved
    obtain ⟨next, step, later⟩ := Option.bind_eq_some_iff.1 moved
    split at step
    · cases step
      exact ih later
    · cases step

theorem create_written {written : FileTree} {text : String} (created : t.create? path text = some written) :
    written = t.write (locationOf path) text := by
  unfold create? at created
  simp only [Option.bind_eq_bind, Option.bind_eq_some_iff] at created
  obtain ⟨location, moved, made⟩ := created
  have same := @checked_moves (fun location => !t.isFile location) (Path.segments path) (origin path)
    location (by
      rw [← moved]
      congr 1
      funext location segment
      cases t.isFile location <;> rfl)
  split at made
  · cases made
  · cases made
    rw [same, locationOf]

/-! ## Trees of a file system -/

/-- A tree as a file system has them: what stands in a directory has a proper name, and nothing is a
file and a directory. -/
def isWellFormed (t : FileTree) : Bool :=
  t.files.all fun entry => (entry.1.dropWhile isOutward).all Path.isProper && !t.isDirectory entry.1

theorem well_formed_file (wellFormed : t.isWellFormed = true) {file : Location} (there : t.isFile file = true) :
    (∀ name ∈ file.dropWhile isOutward, Path.isProper name = true) ∧ t.isDirectory file = false := by
  obtain ⟨content, member⟩ := is_file_iff.1 there
  have checked := List.all_eq_true.1 wellFormed _ member
  simpa only [Bool.and_eq_true, List.all_eq_true, Bool.not_eq_true'] using checked

/-- The way down to a file has proper names only. -/
theorem way_proper (wellFormed : t.isWellFormed = true) {names : Location}
    (there : t.isFile (location ++ names) = true) (down : ∀ name ∈ names.head?, isOutward name = false) :
    ∀ name ∈ names, Path.isProper name = true := by
  intro name member
  refine (well_formed_file wellFormed there).1 name ?_
  obtain ⟨next, rest, rfl⟩ := List.exists_cons_of_ne_nil (List.ne_nil_of_mem member)
  rw [List.dropWhile_append]
  split
  · rwa [List.dropWhile_cons_of_neg (by rw [down next rfl]; exact Bool.false_ne_true)]
  · exact List.mem_append_right _ member

/-- What holds a directory is a directory. -/
theorem is_directory_parent (inward : isOutward name = false) (there : t.isDirectory (location ++ [name]) = true) :
    t.isDirectory location = true := by
  have down {names : Location} : below? location (location ++ name :: names) = some (name :: names) :=
    below_iff.2 ⟨rfl, name, rfl, inward⟩
  have further {file : Location} (deeper : (below? (location ++ [name]) file).isSome = true) :
      ∃ names, below? location file = some names := by
    obtain ⟨names, way⟩ := Option.isSome_iff_exists.1 deeper
    obtain ⟨rfl, _⟩ := below_iff.1 way
    rw [List.append_assoc]
    exact ⟨_, down⟩
  unfold isDirectory at there
  simp only [Bool.or_eq_true, List.all_append, List.all_cons, inward, Bool.false_and, Bool.and_false,
    Bool.false_eq_true, false_or, List.contains_iff_mem, List.any_eq_true] at there
  rcases there with (listed | ⟨⟨file, content⟩, member, deeper⟩) | ⟨directory, member, deeper⟩
  · exact is_directory_of_below (.inr listed) down
  · obtain ⟨names, way⟩ := further deeper
    exact is_directory_of_below (.inl (is_file_iff.2 ⟨content, member⟩)) way
  · obtain ⟨names, way⟩ := further deeper
    exact is_directory_of_below (.inr member) way

/-- A location that steps lead to goes out of the working directory first, if at all. -/
def LeadsOutFirst (location : Location) : Prop :=
  ∀ name ∈ location.dropWhile isOutward, isOutward name = false

theorem leads_out_push (first : LeadsOutFirst location) (inward : isOutward name = false) :
    LeadsOutFirst (location ++ [name]) := by
  intro found member
  rw [List.dropWhile_append] at member
  split at member
  · rw [List.dropWhile_cons_of_neg (by rw [inward]; exact Bool.false_ne_true)] at member
    rw [List.mem_singleton.1 member]
    exact inward
  · rcases List.mem_append.1 member with before | last
    · exact first found before
    · rw [List.mem_singleton.1 last]
      exact inward

theorem leads_out_all (out : location.all isOutward = true) : LeadsOutFirst location := by
  intro name member
  rw [List.dropWhile_eq_nil_iff.2 (List.all_eq_true.1 out)] at member
  cases member

/-- When the last name leads out, all of them do. -/
theorem all_outward (first : LeadsOutFirst location) {last : String} (ends : location.getLast? = some last)
    (out : isOutward last = true) : location.all isOutward = true := by
  rw [List.all_eq_true, ← List.dropWhile_eq_nil_iff]
  refine Decidable.byContradiction fun down => ?_
  rw [← List.takeWhile_append_dropWhile (p := isOutward) (l := location), List.getLast?_append,
    List.getLast?_eq_some_getLast down, Option.some_or] at ends
  obtain rfl := Option.some.inj ends
  rw [first _ (List.getLast_mem down)] at out
  cases out

theorem leads_out_parent (first : LeadsOutFirst location) : LeadsOutFirst location.dropLast := by
  rcases List.eq_nil_or_concat location with rfl | ⟨front, last, rfl⟩
  · exact first
  · rw [List.concat_eq_append, List.dropLast_concat]
    rw [List.concat_eq_append] at first
    intro name member
    refine first name ?_
    rw [List.dropWhile_append]
    split
    · rename_i none
      rw [List.isEmpty_iff.1 none] at member
      cases member
    · exact List.mem_append_left _ member

theorem leads_out_move (first : LeadsOutFirst location) (whole : '/' ∉ segment.toList) :
    LeadsOutFirst (move location segment) := by
  unfold move
  split
  · exact first
  · split
    · split
      · exact first
      · rename_i ends
        refine leads_out_all ?_
        rw [List.all_append, all_outward first ends rfl]
        rfl
      · exact leads_out_parent first
      · exact leads_out_all rfl
    · rename_i named inward
      refine leads_out_push first ?_
      simp only [isOutward, Bool.or_eq_false_iff, beq_eq_false_iff_ne]
      refine ⟨inward, ?_⟩
      rintro rfl
      exact whole (by decide)

theorem leads_out_moves {segments : List String} (whole : ∀ segment ∈ segments, '/' ∉ segment.toList)
    {start : Location} (first : LeadsOutFirst start) : LeadsOutFirst (segments.foldl move start) := by
  induction segments generalizing start with
  | nil => exact first
  | cons segment segments ih =>
    exact ih (fun later member => whole later (List.mem_cons_of_mem _ member))
      (leads_out_move first (whole segment List.mem_cons_self))

theorem leads_out_origin (path : String) : LeadsOutFirst (origin path) := by
  unfold origin
  split
  · exact leads_out_all rfl
  · exact leads_out_all rfl

/-- A step that does not go down leads from a directory to a directory. -/
theorem move_directory (first : LeadsOutFirst location) (there : t.isDirectory location = true)
    (unnamed : segment = "" ∨ segment = "." ∨ segment = "..") : t.isDirectory (move location segment) = true := by
  have outward {location : Location} (out : location.all isOutward = true) :
      t.isDirectory location = true := by
    simp [isDirectory, out]
  unfold move
  split
  · exact there
  · split
    · split
      · exact there
      · rename_i ends
        refine outward ?_
        rw [List.all_append, all_outward first ends rfl]
        rfl
      · rename_i last root up ends
        obtain ⟨front, rfl⟩ := List.getLast?_eq_some_iff.1 ends
        rw [List.dropLast_concat]
        refine is_directory_parent ?_ there
        simp only [isOutward, Bool.or_eq_false_iff, beq_eq_false_iff_ne]
        exact ⟨up, root⟩
      · exact outward rfl
    · rename_i named inward
      rcases unnamed with empty | dot | dots
      · exact absurd (.inl empty) named
      · exact absurd (.inr dot) named
      · exact absurd dots inward

/-- A file is located by its own name, which comes last in the path: everything else that a path can
end with leads to a directory. -/
theorem located_name (wellFormed : t.isWellFormed = true) (located : t.locate? path = some location)
    (there : t.isFile location = true) :
    ∃ name, Path.isProper name = true ∧ Path.fileName? path = some name ∧
      location.getLast? = some name := by
  have whole : ∀ segment ∈ Path.segments path, '/' ∉ segment.toList :=
    Path.segments_from_slash [] path.toList List.not_mem_nil
  rcases List.eq_nil_or_concat (Path.segments path) with none | ⟨front, last, split⟩
  · exact absurd none (Path.segments_from_some [] path.toList)
  · rw [List.concat_eq_append] at split
    rw [split] at whole
    unfold locate? at located
    rw [split, List.foldlM_append] at located
    obtain ⟨before, moved, step⟩ := Option.bind_eq_some_iff.1 located
    have reached := checked_moves moved
    rw [List.foldlM_cons] at step
    obtain ⟨reach, step, same⟩ := Option.bind_eq_some_iff.1 step
    obtain rfl : reach = location := Option.some.inj same
    split at step
    · rename_i directory
      cases step
      have first : LeadsOutFirst before := reached ▸
        leads_out_moves (fun segment member => whole segment (List.mem_append_left _ member))
          (leads_out_origin path)
      by_cases unnamed : last = "" ∨ last = "." ∨ last = ".."
      · have again := move_directory first directory unnamed
        rw [(well_formed_file wellFormed there).2] at again
        cases again
      · rw [not_or, not_or] at unnamed
        have proper : Path.isProper last = true := by
          simpa [Path.isProper, unnamed] using whole last (by simp)
        refine ⟨last, proper, Path.file_name_last split unnamed, ?_⟩
        rw [move_proper proper, List.getLast?_concat]
    · cases step

end FileTree

namespace Surroundings

open FileTree

variable {s : Surroundings} {t : FileTree} {path : String}

/-- What the output of a found file keeps of the way to it are proper names, and its path is made of
them. -/
theorem Finds.names (wellFormed : t.isWellFormed = true) (walksDown : s.WalksDown t) {file names : Location}
    (finds : s.Finds t path file names) :
    (∀ name ∈ names, Path.isProper name = true) ∧
      Path.segments (Command.relativePath t path names) = names := by
  unfold Command.relativePath
  cases finds with
  | itself located there =>
    obtain ⟨name, proper, named, last⟩ := located_name wellFormed located there
    have only : file.getLast?.toList = [name] := by rw [last, Option.toList_some]
    rw [located, Option.any_some, there, if_pos rfl, named, Option.getD_some, only]
    exact ⟨fun found member => List.mem_singleton.1 member ▸ proper, Path.segments_proper proper⟩
  | walked located notFile _ walks entry there source =>
    have proper := way_proper wellFormed there (walksDown _ _ walks _ entry)
    have some : names ≠ [] := by
      rintro rfl
      cases source
    rw [located, Option.any_some, notFile, if_neg Bool.false_ne_true]
    exact ⟨proper, Path.segments_intercalate some proper⟩

/-- The output of a found file goes to the names that it keeps, below the directory. -/
theorem Finds.target (wellFormed : t.isWellFormed = true) (walksDown : s.WalksDown t) {file names : Location}
    (finds : s.Finds t path file names) (directory : String) :
    locationOf (Path.join directory (Command.relativePath t path names)) =
      locationOf directory ++ names := by
  obtain ⟨proper, segments⟩ := finds.names wellFormed walksDown
  have relative : Path.isAbsolute (Command.relativePath t path names) = false :=
    Path.relative_of_proper (segments.symm ▸ proper)
  rw [location_of_join directory relative, segments, moves_proper proper]

/-- One path finds no two files with the same place for their output. -/
theorem Finds.file_unique {file file' names : Location} (finds : s.Finds t path file names)
    (finds' : s.Finds t path file' names) : file = file' := by
  cases finds with
  | itself located there =>
    generalize kept : file.getLast?.toList = names at finds'
    cases finds' with
    | itself located' _ => exact Option.some.inj (located.symm.trans located')
    | walked located' notFile _ _ _ _ _ =>
      rw [← Option.some.inj (located.symm.trans located'), there] at notFile
      cases notFile
  | walked located notFile _ _ _ _ _ =>
    generalize kept : names = names' at finds'
    cases finds' with
    | itself located' there =>
      rw [Option.some.inj (located'.symm.trans located), notFile] at there
      cases there
    | walked located' _ _ _ _ _ _ =>
      rw [Option.some.inj (located.symm.trans located')]

end Surroundings

end AllocGuard
