import Mathlib.Data.Finset.Card
import Mathlib.Data.Finset.Image
import Mathlib.Logic.Relation
import AllocGuard.Proofs.NewHeaders

/-! The name of a new parameter. A name that is in use gets underscores until it is not. Names with
different numbers of underscores differ, so every round uses up another one of the identifiers in the
range, and the rounds end. The name they end with has as few underscores as can be, and no identifier of
the function has it. -/
namespace AllocGuard

theorem underscored_zero (name : String) : underscored name 0 = name := by
  rw [underscored, List.replicate_zero, String.ofList_nil, String.append_empty]

theorem underscored_succ (name : String) (count : Nat) :
    underscored name (count + 1) = (underscored name count).push '_' := by
  apply String.toList_injective
  rw [underscored, underscored, String.toList_push, String.toList_append, String.toList_append,
    String.toList_ofList, String.toList_ofList, List.replicate_succ', List.append_assoc]

theorem underscored_injective (name : String) : Function.Injective (underscored name) := by
  intro one two same
  have lengths := congrArg String.length same
  simpa only [underscored, String.length_append, String.length_ofList, List.length_replicate,
    Nat.add_left_cancel_iff] using lengths

/-- Names that are in use with every number of underscores below `count` are as many identifiers. -/
theorem underscored_used_le {used : List String} {name : String} {count : Nat}
    (taken : ∀ fewer < count, underscored name fewer ∈ used) : count ≤ used.toFinset.card := by
  have inside : (Finset.range count).image (underscored name) ⊆ used.toFinset := by
    intro candidate member
    obtain ⟨fewer, below, rfl⟩ := Finset.mem_image.1 member
    exact List.mem_toFinset.2 (taken fewer (Finset.mem_range.1 below))
  calc count = ((Finset.range count).image (underscored name)).card := by
        rw [Finset.card_image_of_injective _ (underscored_injective name), Finset.card_range]
    _ ≤ used.toFinset.card := Finset.card_le_card inside

/-- The bounded search does not fail: not all of its candidates can be in use. -/
theorem fresh_name_least (used : List String) (name : String) :
    ∃ count, freshName used name = underscored name count ∧ underscored name count ∉ used ∧
      ∀ fewer < count, underscored name fewer ∈ used := by
  have searched : Position.first? (fun count => !used.contains (underscored name count)) 0 (used.length + 1) =
      Position.firstIn? (fun count => !used.contains (underscored name count)) 0 (used.length + 1) := rfl
  rw [freshName, searched]
  cases found : Position.firstIn? (fun count => !used.contains (underscored name count)) 0 (used.length + 1) with
  | none =>
    have taken : ∀ fewer < used.length + 1, underscored name fewer ∈ used := by
      intro fewer below
      simpa using Position.first_none found (Nat.zero_le fewer) below
    have enough := underscored_used_le taken
    have distinct := used.toFinset_card_le
    omega
  | some count =>
    obtain ⟨_, _, free, taken⟩ := Position.first_iff.1 found
    refine ⟨count, by rw [Option.getD_some], by simpa using free, fun fewer below => ?_⟩
    simpa using taken fewer (Nat.zero_le fewer) below

namespace TokenSeq

variable {ts : TokenSeq} {start stop : Nat} {name : String}

/-- No identifier in `[start, stop)` is spelled so. -/
def Unused (ts : TokenSeq) (start stop : Nat) (name : String) : Prop :=
  ∀ i, start ≤ i → i < stop → ts.kind? i = some .identifier → ts.spelling i ≠ name

/-- One round of the search for a name: a name in use gets one more underscore. -/
def Renamed (ts : TokenSeq) (start stop : Nat) (name next : String) : Prop :=
  ¬ ts.Unused start stop name ∧ next = name.push '_'

theorem unused_iff : ts.Unused start stop name ↔ name ∉ ts.identifiersIn start stop := by
  simp only [Unused, identifiersIn, List.mem_map, List.mem_filter, Position.mem_range, has_kind_iff]
  constructor
  · rintro unused ⟨i, ⟨⟨lower, upper⟩, identifier⟩, spelled⟩
    exact unused i lower (by omega) identifier spelled
  · intro missing i lower upper identifier spelled
    have inside := lt_size_of_kind identifier
    exact missing ⟨i, ⟨⟨lower, by omega⟩, identifier⟩, spelled⟩

/-- As long as the names are in use, the rounds go on. -/
theorem renamed_rounds {count : Nat} (taken : ∀ fewer < count, ¬ ts.Unused start stop (underscored name fewer)) :
    Relation.ReflTransGen (ts.Renamed start stop) name (underscored name count) := by
  induction count with
  | zero => rw [underscored_zero]
  | succ count ih =>
    refine .tail (ih fun fewer below => taken fewer (by omega)) ?_
    exact ⟨taken count (Nat.lt_succ_self count), underscored_succ name count⟩

theorem reshape_out_name {f : Function} {outParam type : String} {edit : Option Edit}
    (shaped : ts.reshape f outParam = .ok (.outParam type name, edit)) :
    name = ts.uniqueName f.start f.stop outParam := by
  rcases reshape_cases shaped with ⟨_, shape, _⟩ | ⟨_, h, read, changes⟩
  · cases shape
  · rcases changes with ⟨_, shape, _⟩ | ⟨_, _, shape, _⟩ | ⟨_, _, _, _, rfl⟩
    · cases shape
    · cases shape
    · rcases reshape_edit read shaped with ⟨_, shape, _⟩ | ⟨_, shape, _⟩
      · cases shape
      · exact (ReturnShape.outParam.inj shape).2

/-- The name of a new parameter is the preferred one with underscores behind it. No identifier in the range
has it, and with fewer underscores one would. It is found in finitely many rounds, not more than there are
different identifiers in the range. So the parameter that a function is given has a name that no identifier
of the function has. -/
theorem unique_name_least (ts : TokenSeq) (preferred : String) :
    (∀ start stop, ∃ count, ts.uniqueName start stop preferred = underscored preferred count ∧
      ts.Unused start stop (underscored preferred count) ∧
      (∀ fewer < count, ¬ ts.Unused start stop (underscored preferred fewer)) ∧
      Relation.ReflTransGen (ts.Renamed start stop) preferred (underscored preferred count) ∧
      (∀ next, ¬ ts.Renamed start stop (underscored preferred count) next) ∧
      count ≤ (ts.identifiersIn start stop).toFinset.card) ∧
    ∀ f type name edit, ts.reshape f preferred = .ok (.outParam type name, edit) →
      ts.Unused f.start f.stop name := by
  have least (start stop : Nat) := fresh_name_least (ts.identifiersIn start stop) preferred
  constructor
  · intro start stop
    obtain ⟨count, same, free, taken⟩ := least start stop
    have unused := unused_iff.2 free
    have used : ∀ fewer < count, ¬ ts.Unused start stop (underscored preferred fewer) :=
      fun fewer below unused => unused_iff.1 unused (taken fewer below)
    exact ⟨count, same, unused, used, renamed_rounds used, fun next round => round.1 unused,
      underscored_used_le taken⟩
  · intro f type name edit shaped
    obtain ⟨count, same, free, _⟩ := least f.start f.stop
    rw [reshape_out_name shaped, uniqueName, same]
    exact unused_iff.2 free

/-- A parameter and a local variable have the first two names. -/
theorem unique_name_least_collisions :
    let ts := ofSource "long f(int out) \x7b int out_; \x7d"
    let f : Function := ⟨"f", 0, 9, 17, false, false, "long", false⟩
    (ts.reshape f "out").toOption =
        some (.outParam "long" "out__", some ⟨0, 8, "int f(int out, long *out__)"⟩) ∧
      ts.Unused f.start f.stop "out__" := by
  intro ts f
  have hit : (ts.reshape f "out").toOption =
      some (.outParam "long" "out__", some ⟨0, 8, "int f(int out, long *out__)"⟩) := by
    decide +kernel
  exact ⟨hit, (unique_name_least ts "out").2 f _ _ _ (to_option_some.1 hit)⟩

end TokenSeq

end AllocGuard
