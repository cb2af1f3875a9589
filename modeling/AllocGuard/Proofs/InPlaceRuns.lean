import AllocGuard.Proofs.SourceFiles

/-! Runs that overwrite their files. Nothing is written before the settings and all paths have been
found good. The texts are those of the tree at the start, so it does not matter how often a file is
named: what it is overwritten with is the same each time. A file that is not text fails alone. -/
namespace AllocGuard

/-- A text that counts as unchanged is unchanged. -/
theorem harden_unchanged {settings : Settings} {text : String}
    (same : (harden settings text).changed = false) : (harden settings text).text = text := by
  revert same
  unfold harden
  dsimp only
  split
  · simp
  · intro _
    rfl

namespace Command

/-- What a file holds when it has been dealt with in place. -/
def hardenedContent (settings : Settings) : Content → Content
  | .text text => .text (harden settings text).text
  | .binary => .binary

theorem not_text_content (settings : Settings) {t : FileTree} {file : Location} (unread : t.text? file = none) :
    (t.content? file).map (hardenedContent settings) = t.content? file := by
  rcases found : t.content? file with _ | text | _
  · rfl
  · rw [FileTree.text_iff.2 found] at unread
    cases unread
  · rfl

/-- How far a run in place has come when the files at `done` have been dealt with: each of them is
hardened once, nothing else has changed, and no file has failed unless it is not text. -/
structure HardenedInPlace (settings : Settings) (t : FileTree) (done : List Location)
    (p : Progress) : Prop where
  content : ∀ file, p.tree.content? file =
    if file ∈ done then (t.content? file).map (hardenedContent settings) else t.content? file
  directories : p.tree.directories = t.directories
  complete : p.isComplete = true ↔ ∀ file ∈ done, (t.text? file).isSome = true

theorem hardened_in_place_start (settings : Settings) (t : FileTree) :
    HardenedInPlace settings t [] { tree := t } where
  content file := (if_neg (List.not_mem_nil)).symm
  directories := rfl
  complete := by simp

/-- In place, a file with a text is written if its text has changed, and nothing else is. -/
theorem emit_in_place {o : Options} (inPlace : o.inPlace = true) (p : Progress) (source : Source)
    (text : String) (outcome : Outcome) :
    (emit o p source text outcome).tree =
        (if outcome.changed then p.tree.write source.location outcome.text else p.tree) ∧
      (emit o p source text outcome).isComplete = p.isComplete := by
  unfold emit
  rw [if_pos inPlace]
  cases outcome.changed <;> exact ⟨rfl, rfl⟩

/-- One file more. Whether it has been dealt with before makes no difference. -/
theorem HardenedInPlace.step {o : Options} (inPlace : o.inPlace = true) {settings : Settings} {t : FileTree}
    {done : List Location} {p : Progress} (before : HardenedInPlace settings t done p) (source : Source) :
    HardenedInPlace settings t (source.location :: done) (processFile o settings t p source) := by
  unfold processFile hardened?
  cases read : t.text? source.location with
  | none =>
    refine ⟨fun file => (before.content file).trans ?_, before.directories, ?_⟩
    · by_cases here : file = source.location
      · -- a file that is not text is what it was, dealt with or not
        rw [not_text_content settings (here ▸ read), ite_self, ite_self]
      · simp [here]
    · refine iff_of_false Bool.false_ne_true fun readable => ?_
      have there := readable _ List.mem_cons_self
      rw [read] at there
      cases there
  | some text =>
    obtain ⟨tree, complete⟩ := emit_in_place inPlace p source text (harden settings text)
    have content := FileTree.text_iff.1 read
    refine ⟨fun file => ?_, ?_, ?_⟩
    · show (emit o p source text (harden settings text)).tree.content? file = _
      rw [tree]
      by_cases here : file = source.location
      · subst here
        rw [if_pos List.mem_cons_self, content, Option.map_some, hardenedContent]
        cases changed : (harden settings text).changed with
        | true => rw [if_pos rfl, FileTree.content_write, if_pos rfl]
        | false =>
          rw [if_neg Bool.false_ne_true, before.content, content, Option.map_some, hardenedContent,
            harden_unchanged changed, ite_self]
      · have others : file ∈ source.location :: done ↔ file ∈ done := by simp [here]
        simp only [others]
        split
        · rw [FileTree.content_write, if_neg here, before.content]
        · exact before.content file
    · show (emit o p source text (harden settings text)).tree.directories = _
      rw [tree]
      split
      · rw [FileTree.directories_write, before.directories]
      · exact before.directories
    · show (emit o p source text (harden settings text)).isComplete = true ↔ _
      rw [complete, before.complete, List.forall_mem_cons, read]
      simp

theorem HardenedInPlace.run {o : Options} (inPlace : o.inPlace = true) {settings : Settings} {t : FileTree}
    {done : List Location} {p : Progress} (before : HardenedInPlace settings t done p) (sources : List Source) :
    HardenedInPlace settings t ((sources.map Source.location).reverse ++ done)
      (sources.foldl (processFile o settings t) p) := by
  induction sources generalizing done p with
  | nil => exact before
  | cons source sources ih =>
    rw [List.map_cons, List.reverse_cons, List.append_assoc]
    exact ih (before.step inPlace source)

/-- A run in place is all or nothing before it starts, and deals with each file by itself after that.
If its settings cannot be used, if nothing stands at one of its paths or if a walk fails, it changes
nothing and fails. Otherwise every file that a path stands for, and that is text, ends up as its own
text hardened once, however often it is named or come to; everything else stays as it is; and the run
succeeds exactly if every file that a path stands for is text. How directories are walked and how
settings are read makes no difference to this. -/
theorem in_place_hardens_once (s : Surroundings) (o : Options) (t : FileTree) :
    let run := Command.run s { o with inPlace := true } t
    (Refused s o t → run.tree = t ∧ run.exitCode = 1) ∧
      (¬ Refused s o t →
        ∃ settings, settings? s o t = some settings ∧
          (∀ path ∈ o.paths, ∀ file names text, s.Finds t path file names → t.text? file = some text →
            run.tree.text? file = some (harden settings text).text) ∧
          (∀ file, (∀ path ∈ o.paths, ∀ names, s.Finds t path file names → t.text? file = none) →
            run.tree.content? file = t.content? file) ∧
          run.tree.directories = t.directories ∧
          (run.exitCode = 0 ∨ run.exitCode = 1) ∧
          (run.exitCode = 0 ↔ ∀ path ∈ o.paths, ∀ file names, s.Finds t path file names →
            (t.text? file).isSome = true)) := by
  intro run
  constructor
  · intro refused
    have result : run = ⟨1, "", t⟩ := run_refused (o := { o with inPlace := true }) refused
    rw [result]
    exact ⟨rfl, rfl⟩
  · intro started
    obtain ⟨settings, sources, usable, found, tree, exit⟩ := run_started (o := { o with inPlace := true }) started
    have hardened := (hardened_in_place_start settings t).run (o := { o with inPlace := true }) rfl sources
    rw [List.append_nil] at hardened
    have dealt {file : Location} : file ∈ (sources.map Source.location).reverse ↔
        ∃ path ∈ o.paths, ∃ names, s.Finds t path file names := by
      rw [List.mem_reverse, mem_source_locations found]
    have exit : run.exitCode = if (process { o with inPlace := true } settings t sources).isComplete then 0
        else 1 := exit
    refine ⟨settings, usable, ?_, ?_, ?_, ?_, ?_⟩
    · intro path named file names text finds read
      rw [FileTree.text_iff, tree]
      refine (hardened.content file).trans ?_
      rw [if_pos (dealt.2 ⟨path, named, names, finds⟩), FileTree.text_iff.1 read]
      rfl
    · intro file unread
      rw [tree]
      refine (hardened.content file).trans ?_
      split
      · rename_i inside
        obtain ⟨path, named, names, finds⟩ := dealt.1 inside
        exact not_text_content settings (unread path named names finds)
      · rfl
    · rw [tree]
      exact hardened.directories
    · rw [exit]
      split
      · exact .inl rfl
      · exact .inr rfl
    · have complete : run.exitCode = 0 ↔
          (process { o with inPlace := true } settings t sources).isComplete = true := by
        rw [exit]
        split <;> simp [*]
      rw [complete]
      refine hardened.complete.trans ⟨?_, ?_⟩
      · intro readable path named file names finds
        exact readable file (dealt.2 ⟨path, named, names, finds⟩)
      · intro readable file inside
        obtain ⟨path, named, names, finds⟩ := dealt.1 inside
        exact readable path named file names finds

end Command

end AllocGuard
