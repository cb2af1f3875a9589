import AllocGuard.Proofs.RewriteFrame

/-! Which edits are taken, and what becomes of the text. The edits are tried in the order of their
starts, and one is taken if it lies in the sequence and behind every edit taken before it. The text
then has, at each position, the texts of the edits that were taken there, and the token itself unless
one of them covers it. Edits that keep clear of each other are all taken, in whatever order they are
given. -/
namespace AllocGuard

namespace Edit

variable {size cursor : Nat} {edits : List Edit} {e : Edit}

/-! ## The order -/

/-- The edits by their starts, those with the same start in the order in which they were given. -/
structure StablySorted (edits order : List Edit) : Prop where
  perm : order.Perm edits
  ascending : order.Pairwise fun a b => a.start ≤ b.start
  stable : ∀ position, (order.filter fun e => e.start == position) =
    edits.filter fun e => e.start == position

theorem starts_trans (a b c : Edit) (front : decide (a.start ≤ b.start) = true)
    (back : decide (b.start ≤ c.start) = true) : decide (a.start ≤ c.start) = true := by
  simp only [decide_eq_true_eq] at front back ⊢
  omega

theorem starts_total (a b : Edit) : (decide (a.start ≤ b.start) || decide (b.start ≤ a.start)) = true := by
  simp only [Bool.or_eq_true, decide_eq_true_eq]
  omega

theorem sorted_stably (edits : List Edit) : StablySorted edits (sorted edits) where
  perm := List.mergeSort_perm edits _
  ascending := (List.pairwise_mergeSort starts_trans starts_total edits).imp of_decide_eq_true
  stable := by
    intro position
    -- edits with one start are in order already, so sorting keeps them as they follow each other
    have level : (edits.filter fun e => e.start == position).Pairwise
        fun a b => decide (a.start ≤ b.start) = true := by
      refine List.pairwise_of_forall_mem_list fun a here b there => ?_
      have first := beq_iff_eq.1 (List.mem_filter.1 here).2
      have second := beq_iff_eq.1 (List.mem_filter.1 there).2
      exact decide_eq_true (by omega)
    have kept := (List.sublist_mergeSort starts_trans starts_total level List.filter_sublist).filter
      fun e => e.start == position
    simp only [List.filter_filter, Bool.and_self] at kept
    have count := ((List.mergeSort_perm edits fun a b => a.start ≤ b.start).filter
      fun e => e.start == position).length_eq
    exact (kept.eq_of_length count.symm).symm

/-! ## The choice -/

/-- The edits of a list whose positions are picked. -/
def pickedOf (picked : Nat → Bool) : List Edit → List Edit
  | [] => []
  | e :: rest =>
    if picked 0 then e :: pickedOf (fun k => picked (k + 1)) rest
    else pickedOf (fun k => picked (k + 1)) rest

/-- Of edits that are tried in order, exactly those are picked that lie in a sequence of this size,
from `cursor` on and behind every edit picked before. -/
def PicksGreedily (size cursor : Nat) (order : List Edit) (picked : Nat → Bool) : Prop :=
  ∀ k e, order[k]? = some e →
    (picked k = true ↔ cursor ≤ e.start ∧ e.start ≤ e.stop ∧ e.stop ≤ size ∧
      ∀ j before, j < k → picked j = true → order[j]? = some before → before.stop ≤ e.start)

theorem fits_iff : e.fits size cursor = true ↔ cursor ≤ e.start ∧ e.start ≤ e.stop ∧ e.stop ≤ size := by
  simp only [fits, Bool.and_eq_true, decide_eq_true_eq, and_assoc]

/-- What is picked behind an edit that is taken, or is passed over, is picked behind both it and the
edits before. -/
theorem picks_cons {rest : List Edit} {picked : Nat → Bool} (first : picked 0 = e.fits size cursor)
    (later : PicksGreedily size (if e.fits size cursor then e.stop else cursor) rest fun k => picked (k + 1)) :
    PicksGreedily size cursor (e :: rest) picked := by
  intro k found there
  cases k with
  | zero =>
    cases there
    rw [first, fits_iff]
    refine and_congr_right fun _ => and_congr_right fun _ => (and_iff_left ?_).symm
    intro j before impossible
    exact absurd impossible (Nat.not_lt_zero j)
  | succ k =>
    rw [later k found there]
    cases fit : e.fits size cursor with
    | true =>
      obtain ⟨lower, ordered, _⟩ := fits_iff.1 fit
      rw [fit] at first
      rw [if_pos rfl]
      constructor
      · rintro ⟨behind, proper, inside, clear⟩
        refine ⟨by omega, proper, inside, fun j before earlier taken here => ?_⟩
        cases j with
        | zero =>
          cases here
          exact behind
        | succ j => exact clear j before (Nat.lt_of_succ_lt_succ earlier) taken here
      · rintro ⟨_, proper, inside, clear⟩
        refine ⟨clear 0 e (Nat.succ_pos k) first rfl, proper, inside, ?_⟩
        exact fun j before earlier => clear (j + 1) before (Nat.succ_lt_succ earlier)
    | false =>
      rw [fit] at first
      rw [if_neg Bool.false_ne_true]
      refine and_congr_right fun _ => and_congr_right fun _ => and_congr_right fun _ => ?_
      constructor
      · intro clear j before earlier taken here
        cases j with
        | zero => exact absurd (first.symm.trans taken) Bool.false_ne_true
        | succ j => exact clear j before (Nat.lt_of_succ_lt_succ earlier) taken here
      · exact fun clear j before earlier => clear (j + 1) before (Nat.succ_lt_succ earlier)

/-- The end of the edit taken last stands for the ends of all of them. -/
theorem select_greedy (size cursor : Nat) (order : List Edit) :
    ∃ picked, select size cursor order = pickedOf picked order ∧
      PicksGreedily size cursor order picked := by
  induction order generalizing cursor with
  | nil =>
    refine ⟨fun _ => false, rfl, fun k e there => ?_⟩
    cases there
  | cons e rest ih =>
    obtain ⟨picked, chosen, greedy⟩ := ih (if e.fits size cursor then e.stop else cursor)
    refine ⟨fun k => Nat.casesOn k (e.fits size cursor) picked, ?_, picks_cons rfl greedy⟩
    rw [select, pickedOf]
    dsimp only
    rw [← chosen]
    cases e.fits size cursor with
    | true => rfl
    | false => rfl

theorem select_length_le (size cursor : Nat) (edits : List Edit) :
    (select size cursor (sorted edits)).length ≤ edits.length := by
  rw [← (sorted_stably edits).perm.length_eq]
  exact (select_sublist size cursor _).length_le

/-! ## Edits that keep clear of each other -/

/-- Two edits with different starts, of which the first one ends before the other starts. -/
def Apart (a b : Edit) : Prop :=
  a.start ≠ b.start ∧ (a.start < b.start → a.stop ≤ b.start) ∧ (b.start < a.start → b.stop ≤ a.start)

instance (a b : Edit) : Decidable (Apart a b) :=
  inferInstanceAs (Decidable (_ ∧ _ ∧ _))

theorem Apart.symm {a b : Edit} (apart : Apart a b) : Apart b a :=
  ⟨apart.1.symm, apart.2.2, apart.2.1⟩

theorem select_all (inside : ∀ e ∈ edits, e.start ≤ e.stop ∧ e.stop ≤ size) (behind : ∀ e ∈ edits, cursor ≤ e.start)
    (clear : edits.Pairwise fun a b => a.stop ≤ b.start) : select size cursor edits = edits := by
  induction edits generalizing cursor with
  | nil => rfl
  | cons e rest ih =>
    obtain ⟨first, later⟩ := List.pairwise_cons.1 clear
    have fit : e.fits size cursor = true := fits_iff.2 ⟨behind e List.mem_cons_self, inside e List.mem_cons_self⟩
    rw [select, if_pos fit, ih (fun e member => inside e (List.mem_cons_of_mem _ member)) first later]

/-- Edits that keep clear of each other stand one behind the other once they are sorted. -/
theorem sorted_clear (apart : edits.Pairwise Apart) :
    (sorted edits).Pairwise fun a b => a.start < b.start ∧ a.stop ≤ b.start := by
  have order := sorted_stably edits
  have apart := (order.perm.pairwise_iff Apart.symm).2 apart
  refine (order.ascending.and apart).imp fun {a b} both => ?_
  obtain ⟨ascending, different, clear, _⟩ := both
  have before : a.start < b.start := Nat.lt_of_le_of_ne ascending different
  exact ⟨before, clear before⟩

/-- Where no two edits have the same start, there is only one order. -/
theorem sorted_perm {edits edits' : List Edit} (same : edits'.Perm edits) (apart : edits.Pairwise Apart) :
    sorted edits' = sorted edits := by
  have order := sorted_stably edits
  have order' := sorted_stably edits'
  have apart' := (same.pairwise_iff Apart.symm).2 apart
  have strict := (sorted_clear apart).imp fun clear => clear.1
  have strict' := (sorted_clear apart').imp fun clear => clear.1
  refine List.Perm.eq_of_pairwise ?_ strict' strict (order'.perm.trans (same.trans order.perm.symm))
  intro a b _ _ before after
  exact absurd (Nat.lt_trans before after) (Nat.lt_irrefl _)

end Edit

namespace TokenSeq

variable {ts : TokenSeq} {taken : List Edit}

/-! ## The text -/

/-- What stands at a position when edits have been put in: the texts of those that start there, and
the token, unless one of them covers it. -/
def writtenAt (ts : TokenSeq) (taken : List Edit) (i : Nat) : List Char :=
  (taken.filter fun e => e.start == i).flatMap (·.text.toList) ++
    if taken.any fun e => e.start ≤ i && i < e.stop then [] else (ts.text i).toList

theorem text_range_written (ts : TokenSeq) {start stop : Nat} (ordered : start ≤ stop) :
    (ts.textRange start stop).toList =
      (Position.range start stop).flatMap fun i => (ts.text i).toList := by
  obtain ⟨count, rfl⟩ := Nat.exists_eq_add_of_le ordered
  induction count with
  | zero => simp [Position.range, text_range_eq]
  | succ count ih =>
    have middle := Nat.le_add_right start count
    have last := Nat.le_succ (start + count)
    rw [← Nat.add_assoc, ← ts.text_range_append middle last, Position.range_append middle last,
      Position.range_single, text_range_single, List.flatMap_append, String.toList_append, ih middle]
    simp

/-- Where no edit starts or reaches, the token stands by itself. -/
theorem written_alone {i : Nat} (clear : ∀ e ∈ taken, e.start ≠ i ∧ ¬ (e.start ≤ i ∧ i < e.stop)) :
    ts.writtenAt taken i = (ts.text i).toList := by
  have none : (taken.filter fun e => e.start == i) = [] :=
    List.filter_eq_nil_iff.2 fun e member => by simpa using (clear e member).1
  have uncovered : (taken.any fun e => e.start ≤ i && i < e.stop) = false :=
    List.any_eq_false.2 fun e member => by simpa using (clear e member).2
  rw [writtenAt, none, uncovered]
  rfl

section Front

variable {ts : TokenSeq} {e : Edit} {rest : List Edit}

theorem written_cons (i : Nat) :
    ts.writtenAt (e :: rest) i =
      (if e.start = i then e.text.toList else []) ++
        ((rest.filter fun e => e.start == i).flatMap (·.text.toList) ++
          if e.start ≤ i ∧ i < e.stop ∨ (rest.any fun e => e.start ≤ i && i < e.stop) = true then []
          else (ts.text i).toList) := by
  by_cases starts : e.start = i
  · simp [writtenAt, starts]
  · simp [writtenAt, starts]

/-- Behind an edit, and where it does not start, it is of no account. -/
theorem written_behind {i : Nat} (behind : e.stop ≤ i) (other : e.start ≠ i) :
    ts.writtenAt (e :: rest) i = ts.writtenAt rest i := by
  have clear : ¬ (e.start ≤ i ∧ i < e.stop) := fun covers => absurd covers.2 (Nat.not_lt_of_le behind)
  rw [written_cons, if_neg other, List.nil_append, writtenAt]
  simp only [clear, false_or]

/-- An edit that covers a position leaves nothing there but its own text at the front. -/
theorem written_covered {i : Nat} (lower : e.start ≤ i) (upper : i < e.stop)
    (later : ∀ next ∈ rest, e.stop ≤ next.start) :
    ts.writtenAt (e :: rest) i = if e.start = i then e.text.toList else [] := by
  have none : (rest.filter fun e => e.start == i) = [] := by
    refine List.filter_eq_nil_iff.2 fun next member => ?_
    have behind := later next member
    simp only [beq_iff_eq]
    omega
  rw [written_cons, none]
  simp only [lower, upper, and_self, true_or, if_true, List.flatMap_nil, List.append_nil]

/-- An insertion stands in front of whatever else stands there. -/
theorem written_insertion (empty : e.start = e.stop) :
    ts.writtenAt (e :: rest) e.start = e.text.toList ++ ts.writtenAt rest e.start := by
  have clear : ¬ (e.start ≤ e.start ∧ e.start < e.stop) := by omega
  rw [written_cons, if_pos rfl, writtenAt]
  simp only [clear, false_or]

/-- From its start on, an edit gives way to its text. -/
theorem written_from_start {size : Nat} (ordered : e.start ≤ e.stop) (inside : e.stop ≤ size)
    (later : ∀ next ∈ rest, e.stop ≤ next.start) :
    (Position.range e.start (size + 1)).flatMap (ts.writtenAt (e :: rest)) =
      e.text.toList ++ (Position.range e.stop (size + 1)).flatMap (ts.writtenAt rest) := by
  have front {stop : Nat} (longer : e.start < stop) :
      Position.range e.start stop = e.start :: Position.range (e.start + 1) stop := by
    rw [Position.range_append (Nat.le_succ _) longer, Position.range_single, List.singleton_append]
  have behind {i : Nat} (after : e.start < i) (beyond : e.stop ≤ i) :
      ts.writtenAt (e :: rest) i = ts.writtenAt rest i :=
    written_behind beyond (Nat.ne_of_lt after)
  rcases Nat.eq_or_lt_of_le ordered with empty | nonempty
  · rw [← empty, front (by omega), List.flatMap_cons, List.flatMap_cons, written_insertion empty, List.append_assoc]
    refine congrArg _ (congrArg _ (List.flatMap_congr fun i member => ?_))
    have bounds := Position.mem_range.1 member
    exact behind (by omega) (by omega)
  · have covered : (Position.range (e.start + 1) e.stop).flatMap (ts.writtenAt (e :: rest)) = [] := by
      refine List.flatMap_eq_nil_iff.2 fun i member => ?_
      have bounds := Position.mem_range.1 member
      rw [written_covered (by omega) bounds.2 later, if_neg (by omega)]
    rw [Position.range_append ordered (Nat.le_succ_of_le inside), List.flatMap_append, front nonempty,
      List.flatMap_cons, covered, written_covered (Nat.le_refl _) nonempty later, if_pos rfl,
      List.append_nil]
    refine congrArg _ (List.flatMap_congr fun i member => ?_)
    have bounds := Position.mem_range.1 member
    exact behind (by omega) bounds.1

end Front

/-- Putting in edits that follow each other writes out every position from the cursor on. The
induction is on the edits: in front of the first one there are tokens only. -/
theorem splice_written {cursor : Nat} (follow : Edit.Follow ts.size cursor taken) (inside : cursor ≤ ts.size) :
    (ts.splice cursor taken).toList =
      (Position.range cursor (ts.size + 1)).flatMap (ts.writtenAt taken) := by
  induction taken generalizing cursor with
  | nil =>
    have behind : ts.text ts.size = "" := by
      have past : ts.get? ts.size = none := Array.getElem?_eq_none (Nat.le_refl _)
      rw [text, past]
      rfl
    have alone : ts.writtenAt [] = fun i => (ts.text i).toList :=
      funext fun i => written_alone (List.forall_mem_nil _)
    rw [splice, ts.text_range_written inside, alone, Position.range_append inside (Nat.le_succ _),
      Position.range_single, List.flatMap_append, List.flatMap_singleton, behind]
    exact (List.append_nil _).symm
  | cons e rest ih =>
    obtain ⟨lower, ordered, bound, later⟩ := follow
    have follows : ∀ next ∈ rest, e.stop ≤ next.start := fun next member => (Edit.follow_bounds later member).1
    have upper : e.start ≤ ts.size + 1 := by omega
    rw [splice, String.toList_append, String.toList_append, ts.text_range_written lower, ih later bound,
      Position.range_append lower upper, List.flatMap_append, written_from_start ordered bound follows,
      List.append_assoc]
    refine congrArg (· ++ _) (List.flatMap_congr fun i member => ?_)
    have bounds := Position.mem_range.1 member
    refine (written_alone fun next among => ?_).symm
    rcases List.mem_cons.1 among with rfl | among
    · omega
    · have behind := follows next among
      omega

/-- Edits in the sequence that keep clear of each other are all taken. -/
theorem edit_clear {edits : List Edit} (inside : ∀ e ∈ edits, e.start ≤ e.stop ∧ e.stop ≤ ts.size)
    (apart : edits.Pairwise Edit.Apart) : ts.edit edits = ⟨ts.splice 0 (Edit.sorted edits), edits.length, 0⟩ := by
  have perm := (Edit.sorted_stably edits).perm
  have all : Edit.select ts.size 0 (Edit.sorted edits) = Edit.sorted edits :=
    Edit.select_all (fun e member => inside e (perm.mem_iff.1 member)) (fun e _ => Nat.zero_le e.start)
      ((Edit.sorted_clear apart).imp fun clear => clear.2)
  rw [edit, all, perm.length_eq, Nat.sub_self]

/-- What putting in edits does, for every sequence and every list of edits. They are tried by their
starts, stably sorted, and picked greedily. The text is that of the sequence with the picked edits put
in, position by position, and every edit is counted as taken or as passed over. Without edits the
source comes back; edits that lie in the sequence and keep clear of each other are all taken, and
their order makes no difference. -/
theorem edit_takes_greedily (ts : TokenSeq) (edits : List Edit) :
    (∃ order picked, Edit.StablySorted edits order ∧ Edit.PicksGreedily ts.size 0 order picked ∧
      (ts.edit edits).text = String.ofList ((Position.range 0 (ts.size + 1)).flatMap
        (ts.writtenAt (Edit.pickedOf picked order))) ∧
      (ts.edit edits).applied = (Edit.pickedOf picked order).length) ∧
    (ts.edit edits).applied + (ts.edit edits).skipped = edits.length ∧
    (∀ source, ts = ofSource source → ts.edit [] = ⟨source, 0, 0⟩) ∧
    ((∀ e ∈ edits, e.start ≤ e.stop ∧ e.stop ≤ ts.size) → edits.Pairwise Edit.Apart →
      (ts.edit edits).skipped = 0 ∧
        ∀ edits', edits'.Perm edits → (ts.edit edits').text = (ts.edit edits).text) := by
  refine ⟨?_, ?_, ?_, ?_⟩
  · obtain ⟨picked, chosen, greedy⟩ := Edit.select_greedy ts.size 0 (Edit.sorted edits)
    have written := splice_written (Edit.select_follow ts.size 0 (Edit.sorted edits)) (Nat.zero_le ts.size)
    rw [chosen] at written
    refine ⟨Edit.sorted edits, picked, Edit.sorted_stably edits, greedy, ?_, ?_⟩
    · rw [← written, String.ofList_toList, edit, chosen]
    · rw [edit, chosen]
  · exact Nat.add_sub_cancel' (Edit.select_length_le ts.size 0 edits)
  · rintro source rfl
    rw [edit, Edit.sorted, List.mergeSort_nil, Edit.select, splice, text_range_of_source]
    rfl
  · intro inside apart
    refine ⟨by rw [edit_clear inside apart], fun edits' same => ?_⟩
    have inside' : ∀ e ∈ edits', e.start ≤ e.stop ∧ e.stop ≤ ts.size :=
      fun e member => inside e (same.mem_iff.1 member)
    have apart' := (same.pairwise_iff Edit.Apart.symm).2 apart
    rw [edit_clear inside apart, edit_clear inside' apart', Edit.sorted_perm same apart]

theorem edit_takes_greedily_clear :
    let ts := ofSource "a b c"
    let edits : List Edit := [⟨4, 5, "z"⟩, ⟨0, 0, "<"⟩, ⟨2, 4, ""⟩]
    ((∀ e ∈ edits, e.start ≤ e.stop ∧ e.stop ≤ ts.size) ∧ edits.Pairwise Edit.Apart) ∧
      (ts.edit edits).text = "<a z" ∧ (ts.edit edits).skipped = 0 ∧
      (ts.edit edits.reverse).text = (ts.edit edits).text := by
  intro ts edits
  have inside : ∀ e ∈ edits, e.start ≤ e.stop ∧ e.stop ≤ ts.size := by decide +kernel
  have apart : edits.Pairwise Edit.Apart := by decide +kernel
  let ascending : List Edit := [⟨0, 0, "<"⟩, ⟨2, 4, ""⟩, ⟨4, 5, "z"⟩]
  have order : Edit.sorted edits = ascending :=
    (@Edit.sorted_perm ascending edits (by decide) (by decide)).trans
      (List.mergeSort_of_pairwise (by decide))
  have text : (ts.edit edits).text = "<a z" := by
    rw [edit, order]
    decide +kernel
  obtain ⟨none, same⟩ := (ts.edit_takes_greedily edits).2.2.2 inside apart
  exact ⟨⟨inside, apart⟩, text, none, same edits.reverse edits.reverse_perm⟩

-- edits with the same start are tried as they are given: a replacement leaves no room for an insertion
example :
    let ts := ofSource "a b"
    ts.edit [⟨0, 0, "<"⟩, ⟨0, 1, "x"⟩] = ⟨"<x b", 2, 0⟩ ∧
      ts.edit [⟨0, 1, "x"⟩, ⟨0, 0, "<"⟩] = ⟨"x b", 1, 1⟩ := by
  intro ts
  have kept (a b : Edit) (level : a.start = b.start) : Edit.sorted [a, b] = [a, b] :=
    List.mergeSort_of_pairwise (by simp [level])
  rw [edit, edit, kept ⟨0, 0, "<"⟩ ⟨0, 1, "x"⟩ rfl, kept ⟨0, 1, "x"⟩ ⟨0, 0, "<"⟩ rfl]
  decide +kernel

end TokenSeq

end AllocGuard
