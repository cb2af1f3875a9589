import AllocGuard.Hardening
import AllocGuard.Proofs.InsertedGuards
import AllocGuard.Proofs.RewrittenFunctions

/-! The edits of a pass. Each of them lies in the header of a marked function or in its body, so where they are read
as they were written the functions of the source are found again in the hardened text. -/
namespace AllocGuard

open TokenSeq Edit Outline

/-! ## The allocations of an edited body -/

/-- Whether a token is the name of an allocator. -/
def Registry.names (registry : Registry) (face : TokenFace) : Bool :=
  face.1 == .identifier && registry.isRegistered (String.ofList (logicalChars face.2))

/-- With the edits in it a body names no allocator, or only one. Then all that is put in is a guard behind the
statement of the allocation, which checks a chain of members. -/
inductive TokenSeq.Guarded (ts : TokenSeq) (edits : List Edit) (registry : Registry) (f : Function) : Prop
  | none (unnamed : ∀ face ∈ ts.part edits f.body f.stop, registry.names face = false)
  | once {site : Site} {statement : SiteStatement} {subject : Nat × Nat} {status : Bool}
    (found : site ∈ ts.sites registry f.body f.stop) (stands : site.statement = some statement)
    (takes : site.subject = some subject) (chain : ts.Chain (ts.significant subject.1 subject.2))
    (notIf : ∀ first ∈ (ts.significant subject.1 subject.2).head?, ts.spelling first ≠ "if")
    (put : within f.body f.stop edits = [⟨statement.semi + 1, statement.semi + 1,
      String.ofList ((ts.guardOf status false site.allocator.failure subject).flatMap Prod.snd)⟩])
    (alone : (ts.part edits f.body f.stop).Pairwise fun one two => ¬ (registry.names one ∧ registry.names two))

namespace TokenSeq

section Sites

variable {ts : TokenSeq} {registry : Registry} {i : Nat} {faces : List TokenFace} (there : ts.FacesAt i faces)
  {site : Site} (found : site ∈ ts.sites registry i (i + faces.length))

include there found

theorem FacesAt.site_named :
    ∃ (k : Nat) (inside : k < faces.length), site.call = i + k ∧ registry.names faces[k] = true := by
  obtain ⟨lower, upper, reads⟩ := sites_iff.1 found
  obtain ⟨⟨kind, known⟩, _⟩ := site_at_iff.1 reads
  have inside : site.call - i < faces.length := by omega
  refine ⟨site.call - i, inside, by omega, ?_⟩
  have split : faces = faces.take (site.call - i) ++ faces[site.call - i] :: faces.drop (site.call - i + 1) := by
    rw [List.getElem_cons_drop, List.take_append_drop]
  rw [split] at there
  have here := (faces_at_append there).2
  rw [List.length_take, Nat.min_eq_left (Nat.le_of_lt inside), Nat.add_sub_cancel' lower] at here
  rw [here.spelling] at known
  rw [hasKind, here.kind] at kind
  rw [Registry.names, known, Bool.and_true]
  exact kind

/-- Where one allocator is named there is at most one site. -/
theorem FacesAt.one_site (alone : faces.Pairwise fun one two => ¬ (registry.names one ∧ registry.names two))
    {site' : Site} (found' : site' ∈ ts.sites registry i (i + faces.length)) : site = site' := by
  obtain ⟨k, inside, call, names⟩ := there.site_named found
  obtain ⟨k', inside', call', names'⟩ := there.site_named found'
  have apart := List.pairwise_iff_getElem.1 alone
  have same : k = k' := by
    rcases Nat.lt_trichotomy k k' with before | same | behind
    · exact absurd ⟨names, names'⟩ (apart k k' inside inside' before)
    · exact same
    · exact absurd ⟨names', names⟩ (apart k' k inside' inside behind)
  obtain ⟨_, _, reads⟩ := sites_iff.1 found
  obtain ⟨_, _, reads'⟩ := sites_iff.1 found'
  rw [call', ← same, ← call, reads] at reads'
  exact Option.some.inj reads'

end Sites

variable {ts ts' : TokenSeq} {edits : List Edit} {registry : Registry} {i : Nat}

theorem Inserts.there_between {position b : Nat} {added : List TokenFace} (inserts : Inserts ts ts' position added)
    (lower : i ≤ position) : ts'.FacesAt i (ts.facesIn i position ++ (added ++ ts.facesIn position b)) := by
  rw [FacesAt, inserts.faces, List.drop_append_of_le_length, List.drop_take, facesIn]
  · exact (List.prefix_append_right_inj _).2 ((List.prefix_append_right_inj _).2 (List.take_prefix _ _))
  · rw [List.length_take, Nat.min_eq_left inserts.inside]
    exact lower

/-- What is put in behind a `;` comes right behind it. -/
theorem part_behind {a b semi : Nat} {text : String} (seen : ts.kind? semi = some .semicolon) (lower : a ≤ semi)
    (put : within a b edits = [⟨semi + 1, semi + 1, text⟩]) : ts.part edits a b =
      ts.facesIn a (semi + 1) ++ ((ofSource text).faces ++ ts.facesIn (semi + 1) b) := by
  rw [part, put, editedUpTo, editedUpTo, joined_apart, List.append_assoc]
  intro raw lead last
  rw [kind_of_faces] at seen
  rw [← ts.faces_in_append lower (Nat.le_add_right semi 1), facesIn, facesIn, Nat.add_sub_cancel_left,
    List.take_one, List.head?_drop] at last
  obtain ⟨face, here, kind⟩ := Option.map_eq_some_iff.1 seen
  rw [here, Option.toList_some, List.getLast?_append, List.getLast?_singleton, Option.some_or] at last
  cases last
  cases kind

theorem guard_written {subject : Nat × Nat}
    (chained : ChainFaces ((ts.significant subject.1 subject.2).map ts.spelledFace)) (status : Bool)
    (failure : FailureSign) :
    (ofSource (String.ofList ((ts.guardOf status false failure subject).flatMap Prod.snd))).faces =
      ts.guardOf status false failure subject := by
  rw [guardOf]
  have quiet := (guard_insertable chained status false failure).plain
  refine of_source_faces String.toList_ofList ?_ ((guard_reads chained _ _ _ []).reads_from true)
  rw [String.toList_ofList, ← List.append_nil (List.flatMap _ _),
    plain_quiet fun c member => ⟨(quiet c member).1, (quiet c member).2.1⟩]
  rfl

/-- The sites of such a body are safe. -/
theorem Guarded.safe {source : String} {f : Function} (guards : (ofSource source).Guarded edits registry f)
    (inside : f.stop ≤ (ofSource source).size) (there : ts'.FacesAt i ((ofSource source).part edits f.body f.stop))
    {site' : Site} (listed : site' ∈ ts'.sites registry i (i + ((ofSource source).part edits f.body f.stop).length)) :
    site'.isUnsafe = false := by
  cases guards with
  | none unnamed =>
    obtain ⟨k, inside, _, names⟩ := there.site_named listed
    exact absurd names (by rw [unnamed _ (List.getElem_mem inside)]; exact Bool.false_ne_true)
  | @once site statement subject status found stands takes chain notIf put alone =>
    have bounds := statement_inside found stands
    have lower := (sites_iff.1 found).1
    have semicolon := statement_semicolon found stands
    have chained := chain_faces chain
    obtain ⟨ts₁, inserts⟩ : ∃ ts₁, Inserts (ofSource source) ts₁ (statement.semi + 1)
        ((ofSource source).guardOf status false site.allocator.failure subject) :=
      ⟨_, insert_guard semicolon chained _ _ _⟩
    obtain ⟨site₁, found₁, _, _, checked, unused⟩ := recognised_behind found stands takes chained notIf inserts
    have whole := part_behind semicolon (Nat.le_trans lower (Nat.le_of_lt bounds.1)) put
    rw [guard_written chained] at whole
    have there₁ := @Inserts.there_between _ _ f.body _ f.stop _ inserts (by omega)
    have size := inserts.size
    have length := congrArg List.length whole
    rw [List.length_append, List.length_append, faces_in_length (by omega), faces_in_length inside] at length
    rw [← whole] at there₁
    have stop : f.stop + (ts₁.size - (ofSource source).size) =
        f.body + ((ofSource source).part edits f.body f.stop).length := by
      omega
    rw [stop] at found₁
    obtain ⟨site₂, found₂, same, _⟩ := there₁.site there listed
    rw [← same, there₁.one_site found₂ alone found₁, Site.isUnsafe, checked, unused]
    rfl

end TokenSeq

/-! ## The edits of a pass -/

variable {settings : Settings} {source : String} {shape : ReturnShape} {e : Edit}

/-- The edits of a pass, in order. -/
def passEdits (settings : Settings) (source : String) : List Edit :=
  let a := (ofSource source).analyse settings
  Edit.sorted (Analysis.headerEdits (a.headerChanges settings.outParam) ++
    (a.bodyChanges settings (Analysis.reshaped (a.headerChanges settings.outParam))).flatMap (·.2.edits))

theorem mem_header_edit {f : FunctionNode} (marked : f ∈ ((ofSource source).analyse settings).marked)
    (hit : (ofSource source).reshape f.toFunction settings.outParam = .ok (shape, some e)) :
    e ∈ passEdits settings source := by
  rw [passEdits, sorted, List.mem_mergeSort, List.mem_append]
  refine .inl (List.mem_filterMap.2 ⟨_, List.mem_map_of_mem marked, ?_⟩)
  rw [show ((ofSource source).analyse settings).ts = ofSource source from rfl, hit]
  rfl

/-- An edit of a pass changes the header of a marked function or lies in its body. -/
theorem pass_edit (member : e ∈ passEdits settings source) :
    ∃ f ∈ ((ofSource source).analyse settings).marked,
      (∃ shape, (ofSource source).reshape f.toFunction settings.outParam = .ok (shape, some e)) ∨
        f.body < e.start ∧ e.stop ≤ f.stop := by
  rw [passEdits, sorted, List.mem_mergeSort, List.mem_append] at member
  rcases member with header | body
  · simp only [Analysis.headerEdits, Analysis.headerChanges, List.mem_filterMap, List.mem_map, Option.bind_eq_some_iff,
      to_option_some] at header
    obtain ⟨_, ⟨f, marked, rfl⟩, ⟨shape, change⟩, hit, rfl⟩ := header
    exact ⟨f, marked, .inl ⟨shape, hit⟩⟩
  · simp only [Analysis.bodyChanges, List.mem_flatMap, List.mem_map] at body
    obtain ⟨_, ⟨⟨f, shape⟩, listed, rfl⟩, made⟩ := body
    have marked := (Analysis.mem_reshaped.1 listed).1
    have known := analyse_marked_function marked
    have inside := BodyTask.run_inside (functions_of_placed known) (fun site held => by
      obtain ⟨found, holds⟩ := List.mem_filter.1 held
      exact function_site known found holds) e made
    exact ⟨f, marked, .inr ⟨inside.lower_le, inside.le_upper⟩⟩

/-- A source that can be hardened where it stands. What is put in does not run together with what stands next to it.
Only gaps stand between the functions, the functions have lists of parameters, and with the edits in it each body
goes from brace to brace. The headers that change are in parts, which are copied whole. A marked entry point returns
a plain value, or its allocations are guarded. -/
structure Hardenable (settings : Settings) (source : String) : Prop where
  named : Settings.isIdentifier settings.outParam = true
  apart : (ofSource ((ofSource source).splice 0 (passEdits settings source))).faces =
    (ofSource source).part (passEdits settings source) 0 (ofSource source).size
  laid : (ofSource source).LaidOut 0 ((ofSource source).functionsOf settings.entryPoint (ofSource source).outline)
  headers : ∀ f ∈ (ofSource source).functionsOf settings.entryPoint (ofSource source).outline,
    IsHeader ((ofSource source).facesIn f.start f.body)
  bodies : ∀ f ∈ (ofSource source).functionsOf settings.entryPoint (ofSource source).outline,
    isBody ((ofSource source).part (passEdits settings source) f.body f.stop) = true
  parts : ∀ f ∈ ((ofSource source).analyse settings).marked, f.isEntry = false →
    ∃ h : HeaderTokens, h.WellFormed (ofSource source) f.start f.body ∧ h.CopiesWhole (ofSource source) f.returnsVoid
  entry : ∀ f ∈ ((ofSource source).analyse settings).marked, f.isEntry = true →
    f.returnsVoid = false ∧ f.returnsPointer = false ∨
      (ofSource source).Guarded (passEdits settings source) settings.registry f.toFunction

/-- A function whose header changes is not the entry point. -/
theorem TokenSeq.header_changes {ts : TokenSeq} {f : Function} {outParam : String}
    (hit : ts.reshape f outParam = .ok (shape, some e)) : f.isEntry = false := by
  rcases reshape_cases hit with ⟨_, _, stays⟩ | ⟨notEntry, _⟩
  · cases stays
  · exact notEntry

namespace Hardenable

variable {settings : Settings} {source : String} (hardenable : Hardenable settings source)

include hardenable

/-- The edit of a header replaces some of it by a text that starts with a word. -/
theorem header_edit {f : FunctionNode} (marked : f ∈ ((ofSource source).analyse settings).marked) {shape : ReturnShape}
    {e : Edit} (hit : (ofSource source).reshape f.toFunction settings.outParam = .ok (shape, some e)) :
    (f.start ≤ e.start ∧ e.start < e.stop ∧ e.stop ≤ f.body) ∧
      ∀ lead, (ofSource e.text).faces.head? ≠ some (.space, lead) := by
  obtain ⟨within, _⟩ := reshape_within hit
  obtain ⟨h, formed, copied⟩ := hardenable.parts f marked (header_changes hit)
  obtain ⟨first, rest, content, type, edits, _⟩ := new_params_read formed copied hardenable.named hit rfl
  have typed := formed.type_stands type
  have listed := formed.params_stand
  have behind := (prev_significant_bounds formed.before_opening).2
  refine ⟨⟨within.lower_le, ?_, within.le_upper⟩, fun lead => ?_⟩
  · rw [edits]
    show first < h.close + 1
    omega
  · rw [formed.new_text_starts copied hardenable.named hit]
    simp

variable (follow : Follow (ofSource source).size 0 (passEdits settings source)) {e : Edit}
  (member : e ∈ passEdits settings source)

include follow member

theorem owned : ∃ f ∈ ((ofSource source).analyse settings).marked, f.Owns e := by
  have ordered := (follow_bounds follow member).2
  obtain ⟨f, marked, ⟨shape, hit⟩ | body⟩ := pass_edit member
  · exact ⟨f, marked, .inl (hardenable.header_edit marked hit).1⟩
  · exact ⟨f, marked, .inr ⟨body.1, ordered, body.2⟩⟩

/-- An edit that lies in a function belongs to it. -/
theorem edit_in {f : Function} (known : f ∈ (ofSource source).functionsOf settings.entryPoint (ofSource source).outline)
    (lower : f.start < e.stop) (upper : e.stop ≤ f.stop ∨ e.start < f.stop) :
    ∃ g ∈ ((ofSource source).analyse settings).marked, g.toFunction = f ∧
      ((∃ shape, (ofSource source).reshape f settings.outParam = .ok (shape, some e)) ∨ f.body < e.start) := by
  have ordered := (follow_bounds follow member).2
  obtain ⟨g, marked, owns⟩ := pass_edit member
  have known' := analyse_marked_function marked
  have start := (functions_of_placed known').start_le
  have body := (functions_of_placed known').body_lt
  have inside : g.start ≤ e.start ∧ g.start < e.stop ∧ e.stop ≤ g.stop := by
    rcases owns with ⟨shape, hit⟩ | owns
    · have bounds := (hardenable.header_edit marked hit).1
      omega
    · omega
  have same : g.toFunction = f :=
    (functions_disjoint ((ofSource source).functions_of_apart _) known' known).resolve_right (by omega)
  subst same
  exact ⟨g, marked, rfl, owns.imp_right And.left⟩

omit member

/-- A header stays as it is, or one edit replaces some of it. -/
theorem header {f : Function}
    (known : f ∈ (ofSource source).functionsOf settings.entryPoint (ofSource source).outline) :
    (∀ e ∈ passEdits settings source, f.start < e.stop → f.body < e.stop) ∨
      ∃ g ∈ ((ofSource source).analyse settings).marked, g.toFunction = f ∧ ∃ shape e,
        (ofSource source).reshape f settings.outParam = .ok (shape, some e) ∧
          (ofSource source).part (passEdits settings source) f.start f.body =
            (ofSource source).editedUpTo f.body f.start [e] := by
  have body := (functions_of_placed known).body_lt
  refine or_iff_not_imp_left.2 fun changed => ?_
  simp only [not_forall, Nat.not_lt] at changed
  obtain ⟨e, member, lower, upper⟩ := changed
  have ordered := (follow_bounds follow member).2
  obtain ⟨g, marked, rfl, ⟨shape, hit⟩ | behind⟩ := hardenable.edit_in follow member known lower (by omega)
  · refine ⟨g, marked, rfl, shape, e, hit, ?_⟩
    have bounds := (hardenable.header_edit marked hit).1
    rw [part, within_single follow member bounds.2.1 lower upper fun e' member' lower' upper' => ?_]
    have ordered' := (follow_bounds follow member').2
    obtain ⟨_, _, _, ⟨_, hit'⟩ | behind⟩ := hardenable.edit_in follow member' known lower' (by omega)
    · cases hit.symm.trans hit'
      rfl
    · omega
  · omega

/-- The functions of the source are rewritten where they stand. -/
theorem rewrites {ts' : TokenSeq}
    (written : ts'.faces = (ofSource source).part (passEdits settings source) 0 (ofSource source).size) :
    Rewrites (ofSource source) ts' (passEdits settings source)
      ((ofSource source).functionsOf settings.entryPoint (ofSource source).outline) := by
  refine ⟨follow, written, fun f => functions_of_placed, (ofSource source).functions_of_apart _, fun e member => ?_,
    fun f known e member here behind => ?_, fun f known => ?_, hardenable.bodies⟩
  · obtain ⟨f, marked, owns⟩ := hardenable.owned follow member
    exact ⟨_, analyse_marked_function marked, owns⟩
  · have start := (functions_of_placed known).start_le
    have body := (functions_of_placed known).body_lt
    obtain ⟨g, marked, rfl, ⟨shape, hit⟩ | inside⟩ := hardenable.edit_in follow member known behind (by omega)
    · exact (hardenable.header_edit marked hit).2
    · omega
  · rcases hardenable.header follow known with kept | ⟨g, marked, rfl, shape, e, hit, edited⟩
    · rw [part_untouched kept]
      exact hardenable.headers f known
    · obtain ⟨h, formed, copied⟩ := hardenable.parts g marked (header_changes hit)
      exact (formed.new_header_shown copied hardenable.named hit
        ((hardenable.headers _ known).starts (faces_in_there _ _ _)) edited).1

end Hardenable

end AllocGuard
