import AllocGuard.Proofs.HeadersInPlace

/-! Functions of a source whose edits stay inside them. Where what an edited function is made of has the form of a
function, a header with a list of parameters and a body in braces, the function is found again where its tokens have
gone, and nothing else is found. -/
namespace AllocGuard

open Edit TokenSeq Outline

namespace TokenSeq

variable {ts : TokenSeq} {i : Nat} {faces : List TokenFace}

/-! ## Bodies -/

/-- Whether the last of the tokens is the one that closes the group of the pair `b`, `depth` groups being open. -/
def closesLast (b : Bracket) : Nat → List TokenFace → Bool
  | _, [] => false
  | depth, face :: rest =>
    if face.1 == b.opener then closesLast b (depth + 1) rest
    else if face.1 == b.closer then
      if depth ≤ 1 then rest.isEmpty else closesLast b (depth - 1) rest
    else closesLast b depth rest

theorem close_from_faces {b : Bracket} {depth count : Nat} (there : ts.FacesAt i faces)
    (closes : closesLast b depth faces = true) (enough : faces.length ≤ count) :
    ts.closeFrom b depth i count = some (i + faces.length - 1) := by
  induction faces generalizing depth i count with
  | nil => cases closes
  | cons face rest ih =>
    have seen := FacesAt.kind there
    have behind := (faces_at_cons.1 there).2
    obtain ⟨count, rfl⟩ : ∃ more, count = more + 1 := ⟨count - 1, by rw [List.length_cons] at enough; omega⟩
    have later {depth : Nat} (closes : closesLast b depth rest = true) :
        ts.closeFrom b depth (i + 1) count = some (i + (face :: rest).length - 1) := by
      rw [ih behind closes (Nat.le_of_succ_le_succ enough), List.length_cons]
      congr 1
      omega
    rw [closesLast] at closes
    rw [closeFrom, has_kind_of_kind seen, has_kind_of_kind seen]
    split at closes
    · rename_i opener
      rw [if_pos opener]
      exact later closes
    · rename_i opener
      rw [if_neg opener]
      split at closes
      · rename_i closer
        rw [if_pos closer]
        split at closes
        · rename_i last
          rw [if_pos last, List.isEmpty_iff.1 closes]
          rfl
        · rename_i more
          rw [if_neg more]
          exact later closes
      · rename_i closer
        rw [if_neg closer]
        exact later closes

/-- Whether the tokens are a body, from the brace that opens it to the one that closes it. -/
def isBody : List TokenFace → Bool
  | [] => false
  | face :: rest => face.1 == .openBrace && closesLast .brace 1 rest

theorem body_closes (there : ts.FacesAt i faces) (body : isBody faces = true) :
    ts.kind? i = some .openBrace ∧ 0 < faces.length ∧
      ts.matchingClose i ts.size = some (i + faces.length - 1) := by
  cases faces with
  | nil => cases body
  | cons face rest =>
    obtain ⟨opens, closes⟩ := Bool.and_eq_true_iff.1 body
    have seen := (FacesAt.kind there).trans (congrArg some (eq_of_beq opens))
    have behind := (faces_at_cons.1 there).2
    have length := there.length_le
    have inside := lt_size_of_kind seen
    rw [List.length_drop, faces_length, List.length_cons] at length
    refine ⟨seen, Nat.succ_pos _, ?_⟩
    rw [matchingClose, seen, Nat.min_self]
    show ts.closeFrom .brace 1 _ _ = _
    rw [close_from_faces behind closes (by omega), List.length_cons]
    congr 1
    omega

end TokenSeq

/-! ## Functions -/

/-- The edit lies in the header of the function or in its body. -/
def Function.Owns (f : Function) (e : Edit) : Prop :=
  f.start ≤ e.start ∧ e.start < e.stop ∧ e.stop ≤ f.body ∨ f.body < e.start ∧ e.start ≤ e.stop ∧ e.stop ≤ f.stop

/-- The function, read at other positions. -/
def Function.moved (place : Nat → Nat) (f : Function) : Function :=
  { f with start := place f.start, body := place f.body, stop := place f.stop }

theorem functions_disjoint {functions : List Function} (apart : functions.Pairwise fun f g => f.stop ≤ g.start)
    {f g : Function} (known : f ∈ functions) (known' : g ∈ functions) :
    f = g ∨ f.stop ≤ g.start ∨ g.stop ≤ f.start := by
  have ordered := List.pairwise_iff_getElem.1 apart
  obtain ⟨i, inside, rfl⟩ := List.getElem_of_mem known
  obtain ⟨j, inside', rfl⟩ := List.getElem_of_mem known'
  rcases Nat.lt_trichotomy i j with before | rfl | behind
  · exact .inr (.inl (ordered i j inside inside' before))
  · exact .inl rfl
  · exact .inr (.inr (ordered j i inside' inside behind))

/-- Every edit belongs to one of the functions, which stand apart, and the second sequence has the tokens of the
edited first one. There the functions have the form of functions. -/
structure TokenSeq.Rewrites (ts ts' : TokenSeq) (edits : List Edit) (functions : List Function) : Prop where
  follow : Follow ts.size 0 edits
  written : ts'.faces = ts.part edits 0 ts.size
  placed : ∀ f ∈ functions, ts.Placed f
  apart : functions.Pairwise fun f g => f.stop ≤ g.start
  owned : ∀ e ∈ edits, ∃ f ∈ functions, f.Owns e
  opens : ∀ f ∈ functions, ∀ e ∈ edits, e.start = f.start → f.start < e.stop →
    ∀ lead, (ofSource e.text).faces.head? ≠ some (.space, lead)
  header : ∀ f ∈ functions, IsHeader (ts.part edits f.start f.body)
  body : ∀ f ∈ functions, isBody (ts.part edits f.body f.stop) = true

namespace TokenSeq.Rewrites

variable {ts ts' : TokenSeq} {edits : List Edit} {functions : List Function}
  (rewrites : Rewrites ts ts' edits functions)

include rewrites

/-- The edits can be cut between the functions and at their bodies. -/
theorem cut {q : Nat} (between : ∀ f ∈ functions, q ≤ f.start ∨ q = f.body ∨ f.stop ≤ q) : IsCut q edits := by
  refine ⟨fun e member behind => ?_, fun e member here behind => ?_⟩
  all_goals
    obtain ⟨f, known, owns⟩ := rewrites.owned e member
    have side := between f known
    have placed := rewrites.placed f known
    have start := placed.start_le
    have body := placed.body_lt
    rw [Function.Owns] at owns
  · omega
  · exact rewrites.opens f known e member (by omega) (by omega)

theorem cuts {f : Function} (known : f ∈ functions) :
    IsCut f.start edits ∧ IsCut f.body edits ∧ IsCut f.stop edits := by
  have placed := rewrites.placed f known
  have start := placed.start_le
  have body := placed.body_lt
  refine ⟨rewrites.cut fun g known' => ?_, rewrites.cut fun g known' => ?_, rewrites.cut fun g known' => ?_⟩
  all_goals
    rcases functions_disjoint rewrites.apart known known' with rfl | before | behind
    · omega
    · omega
    · omega

/-- The header and the body of a function, where they have gone. -/
theorem parts {f : Function} (known : f ∈ functions) :
    ts'.FacesAt (ts.place edits f.start) (ts.part edits f.start f.body) ∧
      ts.place edits f.body = ts.place edits f.start + (ts.part edits f.start f.body).length ∧
      ts'.FacesAt (ts.place edits f.body) (ts.part edits f.body f.stop) ∧
      ts.place edits f.stop = ts.place edits f.body + (ts.part edits f.body f.stop).length ∧
      ts.place edits f.stop ≤ ts'.size := by
  have placed := rewrites.placed f known
  have body := Nat.le_of_lt placed.body_lt
  obtain ⟨cut, cut', cut''⟩ := rewrites.cuts known
  obtain ⟨place, _, there⟩ :=
    part_there rewrites.follow rewrites.written cut cut' placed.start_le (Nat.le_trans body placed.stop_le)
  obtain ⟨place', inside, there'⟩ := part_there rewrites.follow rewrites.written cut' cut'' body placed.stop_le
  exact ⟨there ▸ faces_in_there _ _ _, place, there' ▸ faces_in_there _ _ _, place', inside⟩

/-- A function is found again, with its body. -/
theorem found {f : Function} (known : f ∈ functions) :
    ts'.kindIs (ts.place edits f.start) isPassedOver = false ∧
      ts'.functionStop? (ts.place edits f.start) = some (ts.place edits f.stop) ∧
      ts'.bodyOpen? (ts.place edits f.start) (ts.place edits f.stop) = some (ts.place edits f.body) := by
  obtain ⟨there, place, there', place', inside⟩ := rewrites.parts known
  obtain ⟨brace, nonempty, closes⟩ := body_closes there' (rewrites.body f known)
  have isHeader := rewrites.header f known
  rw [place] at brace closes place' ⊢
  refine ⟨isHeader.starts there, ?_, isHeader.body_open there brace (by omega) inside⟩
  rw [isHeader.function_stop there brace, bodyStop, closes, place', Option.map_some, Option.getD_some]
  congr 1
  omega

/-- The functions stay in order, with the gaps between them. -/
theorem laid_out {rest : List Function} (known : ∀ f ∈ rest, f ∈ functions)
    (apart : rest.Pairwise fun f g => f.stop ≤ g.start) {i : Nat} (cut : IsCut i edits) (inside : i ≤ ts.size)
    (later : ∀ e ∈ edits, i < e.stop → ∃ f ∈ rest, f.start < e.stop ∧ e.stop ≤ f.stop) (laid : ts.LaidOut i rest) :
    ts'.LaidOut (ts.place edits i) (rest.map (Function.moved (ts.place edits))) := by
  have gap {i j : Nat} (cut : IsCut i edits) (cut' : IsCut j edits) (lower : i ≤ j) (upper : j ≤ ts.size)
      (clear : ∀ e ∈ edits, i < e.stop → j < e.stop) (isGap : IsGap (ts.facesIn i j)) :
      ts.place edits i ≤ ts.place edits j ∧ IsGap (ts'.facesIn (ts.place edits i) (ts.place edits j)) := by
    obtain ⟨place, _, there⟩ := part_there rewrites.follow rewrites.written cut cut' lower upper
    rw [there, part_untouched clear]
    exact ⟨place ▸ Nat.le_add_right _ _, isGap⟩
  induction rest generalizing i with
  | nil =>
    have none : ∀ e ∈ edits, i < e.stop → ts.size < e.stop := fun e member behind => by
      obtain ⟨_, listed, _⟩ := later e member behind
      cases listed
    have last : IsCut ts.size edits := rewrites.cut fun f known => .inr (.inr (rewrites.placed f known).stop_le)
    have size : ts'.size = ts.place edits ts.size := by rw [← faces_length, rewrites.written, place]
    rw [List.map_nil, LaidOut, size]
    exact (gap cut last inside (Nat.le_refl _) none laid).2
  | cons f rest ih =>
    obtain ⟨first, others⟩ := List.forall_mem_cons.1 known
    obtain ⟨before, apart⟩ := List.pairwise_cons.1 apart
    obtain ⟨lower, isGap, laid⟩ := laid
    obtain ⟨cut', _, cut''⟩ := rewrites.cuts first
    have placed := rewrites.placed f first
    have start := placed.start_le
    have body := placed.body_lt
    have stop := placed.stop_le
    obtain ⟨ordered, isGap⟩ := gap cut cut' lower (by omega) (fun e member behind => by
      obtain ⟨g, listed, starts, _⟩ := later e member behind
      rcases List.mem_cons.1 listed with rfl | listed
      · exact starts
      · exact Nat.lt_of_le_of_lt (by have apart := before g listed; omega) starts) isGap
    refine ⟨ordered, isGap, ih others apart cut'' stop (fun e member behind => ?_) laid⟩
    obtain ⟨g, listed, starts, ends⟩ := later e member (by omega)
    rcases List.mem_cons.1 listed with rfl | listed
    · omega
    · exact ⟨g, listed, starts, ends⟩

variable (laid : ts.LaidOut 0 functions)

include laid

/-- Nothing but these functions is found. -/
theorem outline : Outline.functions ts'.outline =
    functions.map fun f => ⟨.function, ts.place edits f.start, ts.place edits f.stop⟩ := by
  have laid' := rewrites.laid_out (fun _ known => known) rewrites.apart
    (rewrites.cut fun f _ => .inl (Nat.zero_le f.start)) (Nat.zero_le _) (fun e member _ => ?_) laid
  · rw [place_zero] at laid'
    rw [outline_functions, laid'.items (Nat.zero_le _) fun g member => ?_, List.map_map]
    · rfl
    · obtain ⟨f, known, rfl⟩ := List.mem_map.1 member
      exact ⟨(rewrites.found known).1, (rewrites.found known).2.1⟩
  · obtain ⟨f, known, owns⟩ := rewrites.owned e member
    have placed := rewrites.placed f known
    have start := placed.start_le
    have body := placed.body_lt
    rw [Function.Owns] at owns
    exact ⟨f, known, by omega, by omega⟩

/-- A function that is found is what the header shows that one of the functions has got. -/
theorem function {entryPoint : String} {g : Function} (known : g ∈ ts'.functionsOf entryPoint ts'.outline) :
    ∃ f ∈ functions, g.body = ts.place edits f.body ∧ g.stop = ts.place edits f.stop ∧
      (ts'.declarationView (ts.place edits f.start)
        (ts.place edits f.start + (ts.part edits f.start f.body).length)).function? entryPoint
          (ts.place edits f.start) (ts.place edits f.body) (ts.place edits f.stop) = some g.untyped := by
  obtain ⟨item, listed, reads⟩ := functions_of_item known
  rw [rewrites.outline laid] at listed
  obtain ⟨f, known, rfl⟩ := List.mem_map.1 listed
  obtain ⟨_, _, opens⟩ := rewrites.found known
  obtain ⟨_, stop, body⟩ := function_range reads
  have view := ts'.function_view entryPoint (ts.place edits f.start) (ts.place edits f.stop)
  rw [show ts'.function? entryPoint _ _ = some g from reads, opens, Option.map_some, Option.bind_some] at view
  refine ⟨f, known, Option.some.inj (body.symm.trans opens), stop, ?_⟩
  rw [view, (rewrites.parts known).2.1]

end TokenSeq.Rewrites

end AllocGuard
