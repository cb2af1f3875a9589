import AllocGuard.Proofs.InsertedText
import AllocGuard.Proofs.SitePlaces

/-! Ranges of tokens that are found again in another sequence, at another place. Their tokens have the same
ranks and the same meaning there. -/
namespace AllocGuard.TokenSeq

/-- The tokens of `[a, b)` that carry meaning stand in `[a', b')`, each `shift` further. -/
structure Moved (ts ts' : TokenSeq) (a b a' b' shift : Nat) : Prop where
  places : ts'.significant a' b' = (ts.significant a b).map (· + shift)
  kind : ∀ i ∈ ts.significant a b, ts'.kind? (i + shift) = ts.kind? i
  spelling : ∀ i ∈ ts.significant a b, ts'.spelling (i + shift) = ts.spelling i

section Moved

variable {ts ts' : TokenSeq} {a b a' b' shift i : Nat}

theorem Moved.meaning (moved : Moved ts ts' a b a' b' shift) : ts'.meaningIn a' b' = ts.meaningIn a b := by
  rw [meaningIn, meaningIn, moved.places, List.map_map]
  refine List.map_congr_left fun i listed => ?_
  rw [Function.comp_apply, moved.kind i listed, moved.spelling i listed]

theorem Moved.same_place (moved : Moved ts ts' a b a' b' shift) {i' : Nat} (same : ts.SamePlace a b ts' a' b' i i') :
    i' = i + shift := by
  obtain ⟨place, here, there⟩ := same
  rw [moved.places, List.getElem?_map, here] at there
  exact (Option.some.inj there).symm

theorem mem_significant : i ∈ ts.significant a b ↔ ts.Stands a b i := by
  rw [significant_eq, List.mem_filter, List.mem_range'_1]
  constructor
  · rintro ⟨⟨lower, upper⟩, carries⟩
    exact ⟨lower, by omega, carries⟩
  · rintro ⟨lower, upper, carries⟩
    exact ⟨⟨lower, by omega⟩, carries⟩

theorem Moved.stands (moved : Moved ts ts' a b a' b' shift) (stands : ts.Stands a b i) :
    ts'.Stands a' b' (i + shift) :=
  mem_significant.1 (moved.places ▸ List.mem_map_of_mem (mem_significant.2 stands))

theorem Moved.rank (moved : Moved ts ts' a b a' b' shift) (stands : ts.Stands a b i) :
    ts'.rank a' (i + shift) = ts.rank a i := by
  have here := significant_at_rank stands
  have there := significant_at_rank (moved.stands stands)
  have same : (ts'.significant a' b')[ts.rank a i]? = some (i + shift) := by
    rw [moved.places, List.getElem?_map, here, Option.map_some]
  have inside := (List.getElem?_eq_some_iff.1 there).1
  exact (List.getElem?_inj inside (ts'.significant_nodup a' b')).1 (there.trans same.symm)

theorem Moved.words (moved : Moved ts ts' a b a' b' shift) :
    (ts'.significant a' b').map ts'.spelling = (ts.significant a b).map ts.spelling := by
  rw [moved.places, List.map_map]
  exact List.map_congr_left moved.spelling

theorem moved_of_faces {ts ts' : TokenSeq} {a b shift : Nat}
    (same : ∀ i, a ≤ i → i < b → ts'.faces[i + shift]? = ts.faces[i]?) :
    Moved ts ts' a b (a + shift) (b + shift) shift := by
  have kind (i : Nat) (lower : a ≤ i) (upper : i < b) : ts'.kind? (i + shift) = ts.kind? i := by
    rw [kind_of_faces, kind_of_faces, same i lower upper]
  have spelling (i : Nat) (lower : a ≤ i) (upper : i < b) : ts'.spelling (i + shift) = ts.spelling i := by
    rw [spelling_of_faces, spelling_of_faces, same i lower upper]
  refine ⟨?_, fun i listed => ?_, fun i listed => ?_⟩
  · have range : List.range' (a + shift) (b + shift - (a + shift)) = (List.range' a (b - a)).map (· + shift) := by
      rw [Nat.add_sub_add_right, Nat.add_comm a, ← List.map_add_range']
      exact List.map_congr_left fun i _ => Nat.add_comm shift i
    rw [significant_eq, significant_eq, range, List.filter_map]
    refine congrArg _ (List.filter_congr fun i listed => ?_)
    obtain ⟨lower, upper⟩ := List.mem_range'_1.1 listed
    rw [Function.comp_apply, isSignificant, isSignificant, kindIs, kindIs, kind i lower (by omega)]
  · exact kind i (mem_significant.1 listed).above (mem_significant.1 listed).below
  · exact spelling i (mem_significant.1 listed).above (mem_significant.1 listed).below

end Moved

end AllocGuard.TokenSeq
