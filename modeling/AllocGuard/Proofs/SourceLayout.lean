import AllocGuard.Proofs.BracketPairs
import AllocGuard.Proofs.CopiedTokens
import AllocGuard.Proofs.FunctionBlindness

/-! Sources that are made of functions and what stands between them. Where no function starts between two functions,
whatever they are, the functions of a source can be told from the parts it is made of. -/
namespace AllocGuard.TokenSeq

/-- Tokens that no declaration takes notice of. -/
def isPassedOver (kind : TokenKind) : Bool :=
  kind.isTrivia || kind == .directive

variable {ts : TokenSeq} {i : Nat} {content rest : List TokenFace}

/-- The brackets of a group that stand in pairs show its end. -/
theorem Paired.closes {b : Bracket} {opening close : List Char} (paired : Paired content)
    (there : ts.FacesAt i ((b.opener, opening) :: (content ++ (b.closer, close) :: rest))) :
    ts.kind? (i + 1 + content.length) = some b.closer ∧
      ∀ limit, i + 1 + content.length < limit → ts.matchingClose i limit = some (i + 1 + content.length) := by
  obtain ⟨_, behind⟩ := faces_at_cons.1 there
  obtain ⟨inside, closing⟩ := faces_at_append behind
  have closes : ts.kind? (i + 1 + content.length) = some b.closer := FacesAt.kind closing
  refine ⟨closes, fun limit upper => ?_⟩
  have stands : ts.Stands (i + 1) limit (i + 1 + content.length) :=
    ⟨Nat.le_add_right _ _, upper, significant_of_kind closes b.closer_significant⟩
  rw [matching_close_eq (FacesAt.kind there), significant_split stands, inside.significant]
  exact close_in_group (paired.balanced inside) closes

theorem kind_inside (inside : i < ts.size) : ∃ kind, ts.kind? i = some kind := by
  rw [kind?, get?, Array.getElem?_eq_getElem inside]
  exact ⟨_, rfl⟩

/-- Tokens between functions. Wherever they stand behind a function, the search for the next one passes them. -/
def IsGap (gap : List TokenFace) : Prop :=
  ∀ (ts : TokenSeq) (i origin : Nat), ts.FacesAt i gap →
    ∃ origin', ts.functionItemsFrom true origin i = ts.functionItemsFrom true origin' (i + gap.length)

/-- The functions stand in order, with gaps in front of them, between them and behind them. -/
def LaidOut (ts : TokenSeq) (i : Nat) : List Function → Prop
  | [] => IsGap (ts.facesIn i ts.size)
  | f :: rest => i ≤ f.start ∧ IsGap (ts.facesIn i f.start) ∧ ts.LaidOut f.stop rest

/-- If each of the functions is found where it starts, these are all functions of the source. -/
theorem LaidOut.items {functions : List Function} (laid : ts.LaidOut i functions) (inside : i ≤ ts.size)
    (found : ∀ f ∈ functions, ts.kindIs f.start isPassedOver = false ∧ ts.functionStop? f.start = some f.stop)
    (origin : Nat) : ts.functionItemsFrom true origin i = functions.map fun f => ⟨.function, f.start, f.stop⟩ := by
  have gap {i j : Nat} (isGap : IsGap (ts.facesIn i j)) (lower : i ≤ j) (upper : j ≤ ts.size) (origin : Nat) :
      ∃ origin', ts.functionItemsFrom true origin i = ts.functionItemsFrom true origin' j := by
    obtain ⟨origin', items⟩ := isGap ts i origin (faces_in_there _ _ _)
    rw [faces_in_length upper, Nat.add_sub_cancel' lower] at items
    exact ⟨origin', items⟩
  induction functions generalizing i origin with
  | nil =>
    obtain ⟨origin', items⟩ := gap laid inside (Nat.le_refl _) origin
    rw [items, function_items_none (kind_end (Nat.le_refl _)), List.map_nil]
  | cons f rest ih =>
    obtain ⟨lower, isGap, later⟩ := laid
    obtain ⟨⟨counts, stops⟩, others⟩ := List.forall_mem_cons.1 found
    have bounds := function_stop_bounds stops
    obtain ⟨origin', items⟩ := gap isGap lower (Nat.le_of_lt (Nat.lt_of_lt_of_le bounds.1 bounds.2)) origin
    obtain ⟨kind, seen⟩ := kind_inside (Nat.lt_of_lt_of_le bounds.1 bounds.2)
    rw [kind_is_of_kind seen] at counts
    rw [items, function_items_step seen counts, freshFunction?, if_pos rfl, stops]
    exact congrArg _ (ih later bounds.2 others _)

end AllocGuard.TokenSeq
