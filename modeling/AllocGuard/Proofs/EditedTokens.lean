import AllocGuard.Proofs.CopiedTokens
import AllocGuard.Proofs.RewriteFrame

/-! The tokens of a source with those of its edits put in. They can be cut wherever no edit lies across, so that the
tokens of a function and the edits in it make one part of them. -/
namespace AllocGuard

namespace Edit

variable {size cursor a b q : Nat} {edits : List Edit} {e : Edit}

/-- The edits that end in `(a, b]`. -/
def within (a b : Nat) (edits : List Edit) : List Edit :=
  edits.filter fun e => a < e.stop && e.stop ≤ b

theorem mem_within : e ∈ within a b edits ↔ e ∈ edits ∧ a < e.stop ∧ e.stop ≤ b := by
  rw [within, List.mem_filter, Bool.and_eq_true, decide_eq_true_eq, decide_eq_true_eq]

theorem within_none (none : ∀ e ∈ edits, a < e.stop → b < e.stop) : within a b edits = [] :=
  List.eq_nil_iff_forall_not_mem.2 fun e member => by
    obtain ⟨known, lower, upper⟩ := mem_within.1 member
    exact absurd (none e known lower) (Nat.not_lt_of_le upper)

theorem within_cons {rest : List Edit} (lower : a < e.stop) (upper : e.stop ≤ b) :
    within a b (e :: rest) = e :: within a b rest :=
  List.filter_cons_of_pos (by simp [lower, upper])

theorem within_skip {rest : List Edit} (outside : e.stop ≤ a ∨ b < e.stop) :
    within a b (e :: rest) = within a b rest := by
  refine List.filter_cons_of_neg ?_
  rw [Bool.and_eq_true, decide_eq_true_eq, decide_eq_true_eq]
  omega

/-- Edits that follow each other end in order. -/
theorem within_append (follow : Follow size cursor edits) (lower : a ≤ q) (upper : q ≤ b) :
    within a b edits = within a q edits ++ within q b edits := by
  induction edits generalizing cursor with
  | nil => rfl
  | cons e rest ih =>
    obtain ⟨_, _, _, later⟩ := follow
    have behind : ∀ e' ∈ rest, e.stop ≤ e'.stop := fun e' member => by
      have bounds := follow_bounds later member
      omega
    rcases Nat.lt_or_ge q e.stop with right | left
    · have all : ∀ e' ∈ e :: rest, q < e'.stop :=
        List.forall_mem_cons.2 ⟨right, fun e' member => Nat.lt_of_lt_of_le right (behind e' member)⟩
      rw [@within_none a q _ fun e' member _ => all e' member, List.nil_append]
      refine List.filter_congr fun e' member => ?_
      rw [decide_eq_true (all e' member), decide_eq_true (Nat.lt_of_le_of_lt lower (all e' member))]
    · rcases Nat.lt_or_ge a e.stop with inside | before
      · rw [within_cons inside (by omega), within_cons inside left, within_skip (.inl left), ih later, List.cons_append]
      · rw [within_skip (.inl before), within_skip (.inl before), within_skip (.inl left), ih later]

/-- An edit that is the only one to end in `(a, b]`. -/
theorem within_single (follow : Follow size cursor edits) (member : e ∈ edits) (nonempty : e.start < e.stop)
    (lower : a < e.stop) (upper : e.stop ≤ b) (only : ∀ e' ∈ edits, a < e'.stop → e'.stop ≤ b → e' = e) :
    within a b edits = [e] := by
  induction edits generalizing cursor with
  | nil => cases member
  | cons first rest ih =>
    obtain ⟨_, _, _, later⟩ := follow
    obtain ⟨here, others⟩ := List.forall_mem_cons.1 only
    by_cases inside : a < first.stop ∧ first.stop ≤ b
    · cases here inside.1 inside.2
      rw [within_cons lower upper, within_none fun e' known starts => Nat.lt_of_not_le fun ends => ?_]
      cases others e' known starts ends
      exact absurd (follow_bounds later known).1 (Nat.not_le_of_lt nonempty)
    · rw [within_skip (by omega)]
      refine ih later ((List.mem_cons.1 member).resolve_left ?_) others
      rintro rfl
      exact inside ⟨lower, upper⟩

theorem follow_inside (follow : Follow size cursor edits) (member : e ∈ edits) : e.stop ≤ size := by
  induction edits generalizing cursor with
  | nil => cases member
  | cons first rest ih =>
    obtain ⟨_, _, inside, later⟩ := follow
    rcases List.mem_cons.1 member with rfl | behind
    · exact inside
    · exact ih later behind

end Edit

namespace TokenSeq

open Edit

/-! ## White space that goes on -/

/-- Tokens behind others. White space behind white space makes one token with it. -/
def joined (front added : List TokenFace) : List TokenFace :=
  match front.getLast?, added with
  | some (.space, raw), (.space, lead) :: rest => front.dropLast ++ (.space, raw ++ lead) :: rest
  | _, _ => front ++ added

theorem joined_apart {front added : List TokenFace}
    (apart : ∀ raw lead, front.getLast? = some (.space, raw) → added.head? ≠ some (.space, lead)) :
    joined front added = front ++ added := by
  unfold joined
  split
  · rename_i raw lead rest last
    exact absurd rfl (apart raw lead last)
  · rfl

theorem joined_blank (front : List TokenFace) (raw lead : List Char) (rest : List TokenFace) :
    joined (front ++ [(.space, raw)]) ((.space, lead) :: rest) = front ++ (.space, raw ++ lead) :: rest := by
  simp [joined]

/-- White space goes on, or the tokens stand one behind the other. -/
theorem joined_cases (front added : List TokenFace) :
    joined front added = front ++ added ∨ ∃ init raw lead rest, front = init ++ [(.space, raw)] ∧
      added = (.space, lead) :: rest ∧ joined front added = init ++ (.space, raw ++ lead) :: rest := by
  unfold joined
  split
  · rename_i raw lead rest last
    obtain ⟨init, rfl⟩ := List.getLast?_eq_some_iff.1 last
    exact .inr ⟨init, raw, lead, rest, rfl, rfl, by rw [List.dropLast_concat]⟩
  · exact .inl rfl

theorem joined_append {front middle added : List TokenFace}
    (apart : middle ≠ [] ∨ ∀ lead, added.head? ≠ some (.space, lead)) :
    joined (front ++ middle) added = front ++ joined middle added := by
  rcases joined_cases middle added with same | ⟨init, raw, lead, rest, rfl, rfl, same⟩
  · rw [same, ← List.append_assoc]
    rcases joined_cases (front ++ middle) added with same' | ⟨init, raw, lead, rest, last, rfl, _⟩
    · exact same'
    · have nonempty := apart.resolve_right fun other => other lead rfl
      obtain ⟨_, rfl⟩ : ∃ init', middle = init' ++ [(.space, raw)] := by
        rw [← List.dropLast_append_getLast nonempty] at last ⊢
        rw [← List.append_assoc] at last
        exact ⟨_, by rw [(List.append_inj' last rfl).2]⟩
      rw [joined_blank] at same
      exact absurd (congrArg List.length same) (by simp)
  · rw [same, ← List.append_assoc, joined_blank, List.append_assoc]

/-! ## Edits put in -/

/-- The tokens from `cursor` up to `stop`, with those of edits that follow each other put in. -/
def editedUpTo (ts : TokenSeq) (stop cursor : Nat) : List Edit → List TokenFace
  | [] => ts.facesIn cursor stop
  | e :: rest =>
    joined (ts.facesIn cursor e.start) (ofSource e.text).faces ++ ts.editedUpTo stop e.stop rest

/-! ## Parts -/

section Parts

variable {ts ts' : TokenSeq} {edits : List Edit} {a b q : Nat}

/-- The tokens `[a, b)`, with the edits that end there put in. -/
def part (ts : TokenSeq) (edits : List Edit) (a b : Nat) : List TokenFace :=
  ts.editedUpTo b a (within a b edits)

theorem part_untouched (none : ∀ e ∈ edits, a < e.stop → b < e.stop) : ts.part edits a b = ts.facesIn a b := by
  rw [part, within_none none, editedUpTo]

/-- No edit lies across the front of the token at `q`, and none that starts there and goes on starts with white
space. -/
structure IsCut (q : Nat) (edits : List Edit) : Prop where
  clear : ∀ e ∈ edits, q < e.stop → q ≤ e.start
  opens : ∀ e ∈ edits, e.start = q → q < e.stop → ∀ lead, (ofSource e.text).faces.head? ≠ some (.space, lead)

/-- Edits in front of a token and edits behind it. -/
theorem edited_append {front back : List Edit} (lower : a ≤ q) (upper : q ≤ b) (left : ∀ e ∈ front, e.stop ≤ q)
    (right : ∀ e ∈ back, (q ≤ e.start ∧ e.start ≤ ts.size) ∧
      (e.start = q → ∀ lead, (ofSource e.text).faces.head? ≠ some (.space, lead))) :
    ts.editedUpTo b a (front ++ back) = ts.editedUpTo q a front ++ ts.editedUpTo b q back := by
  induction front generalizing a with
  | cons e front ih =>
    obtain ⟨here, others⟩ := List.forall_mem_cons.1 left
    rw [List.cons_append, editedUpTo, editedUpTo, ih here others, List.append_assoc]
  | nil =>
    cases back with
    | nil => exact (ts.faces_in_append lower upper).symm
    | cons e rest =>
      obtain ⟨⟨behind, size⟩, opens⟩ := right e List.mem_cons_self
      rw [List.nil_append, editedUpTo, editedUpTo, editedUpTo, ← List.append_assoc, ← faces_in_append ts lower behind,
        joined_append]
      rcases Nat.lt_or_eq_of_le behind with later | here
      · left
        refine List.ne_nil_of_length_pos ?_
        rw [faces_in_length size]
        omega
      · exact .inr (opens here.symm)

/-- An edited source can be cut where no edit lies across. -/
theorem part_append (follow : Follow ts.size 0 edits) (cut : IsCut q edits) (lower : a ≤ q) (upper : q ≤ b) :
    ts.part edits a b = ts.part edits a q ++ ts.part edits q b := by
  rw [part, within_append follow lower upper]
  refine edited_append lower upper (fun e member => (mem_within.1 member).2.2) fun e member => ?_
  obtain ⟨known, behind, _⟩ := mem_within.1 member
  have bounds := follow_bounds follow known
  exact ⟨⟨cut.clear e known behind, Nat.le_trans bounds.2 (follow_inside follow known)⟩,
    fun here => cut.opens e known here behind⟩

/-- Where the token at `q` has gone. -/
def place (ts : TokenSeq) (edits : List Edit) (q : Nat) : Nat :=
  (ts.part edits 0 q).length

theorem place_zero (ts : TokenSeq) (edits : List Edit) : ts.place edits 0 = 0 := by
  rw [place, part_untouched fun _ _ behind => behind, facesIn, Nat.sub_self, List.take_zero]
  rfl

/-- The tokens between two cuts, where they have gone. -/
theorem part_there (follow : Follow ts.size 0 edits) (written : ts'.faces = ts.part edits 0 ts.size)
    (cut : IsCut a edits) (cut' : IsCut b edits) (lower : a ≤ b) (inside : b ≤ ts.size) :
    ts.place edits b = ts.place edits a + (ts.part edits a b).length ∧ ts.place edits b ≤ ts'.size ∧
      ts'.facesIn (ts.place edits a) (ts.place edits b) = ts.part edits a b := by
  have front := part_append follow cut (Nat.zero_le a) lower
  have place : ts.place edits b = ts.place edits a + (ts.part edits a b).length := by
    rw [TokenSeq.place, front, List.length_append, TokenSeq.place]
  have whole := written.trans (part_append follow cut' (Nat.zero_le b) inside)
  refine ⟨place, ?_, ?_⟩
  · rw [← faces_length, whole, List.length_append]
    exact Nat.le_add_right _ _
  · rw [facesIn, whole, front, List.append_assoc, place, Nat.add_sub_cancel_left, TokenSeq.place, List.drop_left,
      List.take_left]

end Parts

end TokenSeq

end AllocGuard
