import AllocGuard.Proofs.DeclaratorSoundness
import AllocGuard.Proofs.FunctionBlindness

/-! Declarations are read by the kinds and the spellings of their tokens. Two views that agree
on those, and on which brackets match, give the same declaration up to the texts in it: the
same name, and the same layers one by one. The texts themselves, which are those of the
specifiers and of what stands in brackets, hold whatever white space and comments are written
there. -/
namespace AllocGuard

/-- The layer without its text. -/
def Layer.bare : Layer → Layer
  | pointer _ => pointer ""
  | array _ => array ""
  | function _ => function ""

namespace DeclarationView

/-- The two views show tokens of the same kinds and spellings, and bracket them alike. -/
structure Alike (v w : DeclarationView) : Prop where
  size : v.size = w.size
  kind : ∀ p, v.kind? p = w.kind? p
  spelling : ∀ p, v.spelling p = w.spelling p
  callShaped : ∀ p, v.isCallShaped p = w.isCallShaped p
  close : ∀ p, v.closeOf p = w.closeOf p

/-! ## One step of each search -/

theorem specifiers_from_eq (v : DeclarationView) (typed : Bool) (word : Option (Nat × Bool)) (p : Nat) :
    v.specifiersFrom typed word p =
      match v.kind? p with
      | none => .ok (p, word)
      | some kind =>
        if kind.isAggregate then
          if v.hasKind (v.aggregateBody p) .openBrace then
            (v.closeOf (v.aggregateBody p)).bind fun close => v.specifiersFrom true none (close + 1)
          else v.specifiersFrom true none (v.aggregateBody p)
        else if (kind == .atomic || kind == .identifier) && v.isCallShaped p then
          (v.closeOf (p + 1)).bind fun close =>
            v.specifiersFrom (typed || (kind == .atomic || Word.isTypeof (v.spelling p))) none (close + 1)
        else if kind == .identifier then v.specifiersFrom true (some (p, typed)) (p + 1)
        else if kind == .complex then v.specifiersFrom true word (p + 1)
        else if kind.isKeyword then v.specifiersFrom typed word (p + 1)
        else .ok (p, word) := by
  rw [specifiersFrom]
  split
  · rename_i missing
    rw [missing]
  · rename_i kind seen
    simp only [seen]
    refine ite_congr rfl (fun _ => ite_congr rfl (fun _ => ?_) fun _ => rfl) fun _ =>
      ite_congr rfl (fun _ => ?_) fun _ => rfl
    · split
      · rename_i e failed
        rw [failed]
        rfl
      · rename_i close closes
        rw [closes]
        rfl
    · split
      · rename_i e failed
        rw [failed]
        rfl
      · rename_i close closes
        rw [closes]
        rfl

theorem pivot_from_eq (v : DeclarationView) (p : Nat) :
    v.pivotFrom p =
      match v.kind? p with
      | none => .ok (p, false)
      | some kind =>
        if kind == .identifier then
          if v.isCallShaped p then (v.closeOf (p + 1)).bind fun close => v.pivotFrom (close + 1)
          else .ok (p, true)
        else if kind == .star || kind.isQualifier || (kind == .openParen && v.isGrouping p) then
          v.pivotFrom (p + 1)
        else .ok (p, false) := by
  rw [pivotFrom]
  split
  · rename_i missing
    rw [missing]
  · rename_i kind seen
    simp only [seen]
    refine ite_congr rfl (fun _ => ite_congr rfl (fun _ => ?_) fun _ => rfl) fun _ => rfl
    split
    · rename_i e failed
      rw [failed]
      rfl
    · rename_i close closes
      rw [closes]
      rfl

theorem suffixes_from_eq (v : DeclarationView) (right : Nat) :
    v.suffixesFrom right =
      match v.kind? right with
      | none => .ok ([], right)
      | some kind =>
        if kind == .openBracket || kind == .openParen then
          (v.closeOf right).bind fun close => (v.suffixesFrom (close + 1)).map fun (layers, stop) =>
            ((if kind == .openBracket then .array (v.innerText right close)
              else .function (v.innerText right close)) :: layers, stop)
        else if kind == .identifier && v.isCallShaped right then
          (v.closeOf (right + 1)).bind fun close => v.suffixesFrom (close + 1)
        else .ok ([], right) := by
  rw [suffixesFrom]
  split
  · rename_i missing
    rw [missing]
  · rename_i kind seen
    simp only [seen]
    refine ite_congr rfl (fun _ => ?_) fun _ => ite_congr rfl (fun _ => ?_) fun _ => rfl
    · split
      · rename_i e failed
        rw [failed]
        rfl
      · rename_i close closes
        rw [closes]
        change _ = (v.suffixesFrom (close + 1)).map _
        cases v.suffixesFrom (close + 1) <;> rfl
    · split
      · rename_i e failed
        rw [failed]
        rfl
      · rename_i close closes
        rw [closes]
        rfl

theorem bare_cons {found found' : Except DeclarationError (List Layer × Nat)} {layer layer' : Layer}
    (rest : found.map (Prod.map (List.map Layer.bare) id) = found'.map (Prod.map (List.map Layer.bare) id))
    (same : layer.bare = layer'.bare) :
    (found.map fun (layers, stop) => (layer :: layers, stop)).map (Prod.map (List.map Layer.bare) id) =
      (found'.map fun (layers, stop) => (layer' :: layers, stop)).map
        (Prod.map (List.map Layer.bare) id) := by
  cases found with
  | error e =>
    cases found' with
    | error e' => exact rest
    | ok result => cases rest
  | ok result =>
    cases found' with
    | error e' => cases rest
    | ok result' =>
      simp only [Except.map, Except.ok.injEq, Prod.map, id, Prod.mk.injEq] at rest ⊢
      rw [List.map_cons, List.map_cons, same, rest.1]
      exact ⟨rfl, rest.2⟩

/-! ## Alike views -/

section Alike

variable {v w : DeclarationView} (alike : v.Alike w)

include alike

theorem Alike.has_kind (p : Nat) (kind : TokenKind) : v.hasKind p kind = w.hasKind p kind := by
  rw [hasKind, alike.kind, hasKind]

theorem Alike.aggregate_body (p : Nat) : v.aggregateBody p = w.aggregateBody p := by
  rw [aggregateBody, aggregateBody, alike.has_kind, alike.callShaped]

theorem Alike.specifiers_from (typed : Bool) (word : Option (Nat × Bool)) (p : Nat) :
    v.specifiersFrom typed word p = w.specifiersFrom typed word p := by
  induction p using Position.forward_induction v.size generalizing typed word with
  | step p ih =>
    rw [specifiers_from_eq, specifiers_from_eq w, ← alike.kind, ← alike.has_kind,
      ← alike.aggregate_body, ← alike.callShaped, ← alike.close, ← alike.close, ← alike.spelling]
    cases seen : v.kind? p with
    | none => rfl
    | some kind =>
      have inside := lt_size_of_kind seen
      have next (q : Nat) (behind : p < q) (typed : Bool) (word : Option (Nat × Bool)) :=
        ih q behind inside typed word
      have group (q : Nat) (behind : p < q) (typed : Bool) :
          ((v.closeOf q).bind fun close => v.specifiersFrom typed none (close + 1)) =
            (v.closeOf q).bind fun close => w.specifiersFrom typed none (close + 1) := by
        cases closes : v.closeOf q with
        | error e => rfl
        | ok close =>
          have bounds := close_of_bounds closes
          exact next (close + 1) (by omega) typed none
      have body := v.lt_aggregate_body p
      simp only [group _ body, group _ (Nat.lt_succ_self p), next _ body, next _ (Nat.lt_succ_self p)]

theorem Alike.base_stop : v.baseStop = w.baseStop := by
  rw [baseStop, baseStop, alike.specifiers_from]
  simp only [alike.spelling]

theorem Alike.grouping (p : Nat) : v.isGrouping p = w.isGrouping p := by
  rw [isGrouping, isGrouping, alike.kind, alike.spelling, alike.callShaped]

theorem Alike.pivot_from (p : Nat) : v.pivotFrom p = w.pivotFrom p := by
  induction p using Position.forward_induction v.size with
  | step p ih =>
    rw [pivot_from_eq, pivot_from_eq w, ← alike.kind, ← alike.callShaped, ← alike.close, ← alike.grouping]
    cases seen : v.kind? p with
    | none => rfl
    | some kind =>
      have inside := lt_size_of_kind seen
      have next (q : Nat) (behind : p < q) := ih q behind inside
      have group : ((v.closeOf (p + 1)).bind fun close => v.pivotFrom (close + 1)) =
          (v.closeOf (p + 1)).bind fun close => w.pivotFrom (close + 1) := by
        cases closes : v.closeOf (p + 1) with
        | error e => rfl
        | ok close =>
          have bounds := close_of_bounds closes
          exact next (close + 1) (by omega)
      simp only [group, next _ (Nat.lt_succ_self p)]

theorem Alike.suffixes_from (right : Nat) :
    (v.suffixesFrom right).map (Prod.map (List.map Layer.bare) id) =
      (w.suffixesFrom right).map (Prod.map (List.map Layer.bare) id) := by
  induction right using Position.forward_induction v.size with
  | step right ih =>
    rw [suffixes_from_eq, suffixes_from_eq w, ← alike.kind, ← alike.callShaped, ← alike.close, ← alike.close]
    cases seen : v.kind? right with
    | none => rfl
    | some kind =>
      have inside := lt_size_of_kind seen
      have next (q : Nat) (behind : right < q) := ih q behind inside
      dsimp only
      split
      · cases closes : v.closeOf right with
        | error e => simp only [Except.bind]
        | ok close =>
          have bounds := close_of_bounds closes
          have rest := next (close + 1) (by omega)
          simp only [Except.bind]
          generalize v.suffixesFrom (close + 1) = found at rest ⊢
          generalize w.suffixesFrom (close + 1) = found' at rest ⊢
          exact bare_cons rest (by split <;> simp only [Layer.bare])
      · split
        · cases closes : v.closeOf (right + 1) with
          | error e => simp only [Except.bind]
          | ok close =>
            have bounds := close_of_bounds closes
            simp only [Except.bind]
            rw [next (close + 1) (by omega)]
        · rfl

/-- The pointers to the left are the same, up to the texts of their qualifiers. -/
theorem Alike.pointers_before (start stop stop' left : Nat) :
    Prod.map (List.map Layer.bare) id (v.pointersBefore start stop left) =
      Prod.map (List.map Layer.bare) id (w.pointersBefore start stop' left) := by
  induction left generalizing stop stop' with
  | zero => rfl
  | succ left ih =>
    rw [pointersBefore, pointersBefore, ← alike.kind]
    split
    · rfl
    · split
      · have rest := ih left left
        simp only [Prod.map, Prod.mk.injEq] at rest ⊢
        exact ⟨congrArg (Layer.pointer "" :: ·) rest.1, rest.2⟩
      · split
        · exact ih stop stop'
        · rfl
      · rfl

theorem Alike.outside {start left right : Nat} {layers layers' : List Layer}
    (same : layers.map Layer.bare = layers'.map Layer.bare)
    (inner : start < left → (v.layersAround start (left - 1) (right + 1)).toOption.map (List.map Layer.bare) =
      (w.layersAround start (left - 1) (right + 1)).toOption.map (List.map Layer.bare)) :
    (v.outside start left layers right).toOption.map (List.map Layer.bare) =
      (w.outside start left layers' right).toOption.map (List.map Layer.bare) := by
  rw [DeclarationView.outside, DeclarationView.outside, ← alike.size, ← alike.has_kind, ← alike.has_kind]
  split
  · exact congrArg some same
  · split
    · rename_i groups
      have rest := inner groups.1
      generalize v.layersAround start (left - 1) (right + 1) = found at rest ⊢
      generalize w.layersAround start (left - 1) (right + 1) = found' at rest ⊢
      cases found with
      | error e =>
        cases found' with
        | error e' => rfl
        | ok more => cases rest
      | ok more =>
        cases found' with
        | error e' => cases rest
        | ok more' =>
          have rest := Option.some.inj rest
          change some ((layers ++ more).map Layer.bare) = some ((layers' ++ more').map Layer.bare)
          rw [List.map_append, List.map_append, same, rest]
    · calc
        _ = none := rfl
        _ = _ := rfl

/-- The layers are the same, one by one, up to their texts. -/
theorem Alike.layers_around (start left right : Nat) :
    (v.layersAround start left right).toOption.map (List.map Layer.bare) =
      (w.layersAround start left right).toOption.map (List.map Layer.bare) := by
  induction left using Nat.strongRecOn generalizing right with
  | ind left ih =>
    have suffixes := alike.suffixes_from right
    cases read : v.suffixesFrom right with
    | error e =>
      cases read' : w.suffixesFrom right with
      | error e' =>
        rw [layersAround, layersAround, read, read']
        rfl
      | ok found =>
        rw [read, read'] at suffixes
        cases suffixes
    | ok found =>
      cases read' : w.suffixesFrom right with
      | error e' =>
        rw [read, read'] at suffixes
        cases suffixes
      | ok found' =>
        rw [read, read'] at suffixes
        simp only [Except.map, Except.ok.injEq, Prod.map, id, Prod.mk.injEq] at suffixes
        have pointers := alike.pointers_before start left left left
        have bound := v.pointers_before_le start left left
        rw [layers_around_eq read, layers_around_eq read', around, around, ← suffixes.2]
        generalize v.pointersBefore start left left = left₁ at pointers bound ⊢
        generalize w.pointersBefore start left left = left₂ at pointers ⊢
        simp only [Prod.map, id, Prod.mk.injEq] at pointers
        simp only [← pointers.2]
        refine alike.outside ?_ fun inside => ih _ (by omega) _
        rw [List.map_append, List.map_append, suffixes.1, pointers.1]

end Alike

/-- A declaration without its texts: where the base ends, the place of the name, and the layers. -/
structure Reading where
  base : Nat
  pivot : Option Nat
  layers : List Layer

/-- What a view is read as, without the texts. -/
def reading (v : DeclarationView) : Option Reading := do
  let base ← v.baseStop.toOption
  guard (base ≠ 0)
  let (pivot, named) ← (v.pivotFrom base).toOption
  let layers ← (v.layersAround base pivot (if named then pivot + 1 else pivot)).toOption.map
    (List.map Layer.bare)
  return ⟨base, if named then some pivot else none, layers⟩

theorem Alike.reading {v w : DeclarationView} (alike : v.Alike w) : v.reading = w.reading := by
  simp only [DeclarationView.reading, alike.base_stop, alike.pivot_from, alike.layers_around]

/-- A declaration is its reading, with the texts of the view. -/
theorem read_reading (v : DeclarationView) :
    v.read.toOption.map (fun d => (d.name, d.type.layers.map Layer.bare, d.type.specifiers)) =
      v.reading.map fun r =>
        (r.pivot.map fun p => (v.spelling p, v.sig.getD p 0), r.layers, v.spanText 0 r.base) := by
  rw [read, reading]
  cases v.baseStop with
  | error e => rfl
  | ok base =>
    by_cases nonempty : base = 0
    · subst nonempty
      rfl
    · cases pivots : v.pivotFrom base with
      | error e =>
        simp [nonempty, pivots, Except.toOption, bind, Except.bind]
      | ok found =>
        obtain ⟨pivot, named⟩ := found
        -- the range behind the name is computed first, so that it is the same on both sides
        cases named with
        | true =>
          cases around : v.layersAround base pivot (pivot + 1) with
          | error e => simp [nonempty, pivots, around, Except.toOption, bind, Except.bind]
          | ok layers =>
            simp [nonempty, pivots, around, Except.toOption, bind, Except.bind, pure, Except.pure, guard]
        | false =>
          cases around : v.layersAround base pivot pivot with
          | error e => simp [nonempty, pivots, around, Except.toOption, bind, Except.bind]
          | ok layers =>
            simp [nonempty, pivots, around, Except.toOption, bind, Except.bind, pure, Except.pure, guard]

end DeclarationView

namespace TokenSeq

/-! ## The core of a declaration -/

/-- What a declaration in `[start, stop)` is read from. -/
def declarationView (ts : TokenSeq) (start stop : Nat) : DeclarationView :=
  ⟨ts, (ts.firstDeclarator 0 (ts.significant start stop)).toArray, min stop ts.size⟩

/-- A range with nothing to read is no declaration, and neither is the empty view. -/
theorem declaration_view (ts : TokenSeq) (start stop : Nat) :
    (ts.declaration start stop).toOption = (ts.declarationView start stop).read.toOption := by
  have empty (limit : Nat) : (DeclarationView.read ⟨ts, #[], limit⟩).toOption = none := by
    rw [DeclarationView.read, DeclarationView.baseStop, DeclarationView.specifiers_from_eq]
    rfl
  rw [declaration, significant_limit, declarationView]
  split
  · rename_i nothing
    rw [nothing]
    exact (empty _).symm
  · split
    · rename_i nothing
      rw [nothing]
      exact (empty _).symm
    · rfl

theorem first_declarator_core {ts : TokenSeq} {a b : Nat} (depth : Int) {tokens : List Nat}
    (stand : ∀ i ∈ tokens, ts.Stands a b i) :
    (ts.core a b).firstDeclarator depth (tokens.map (ts.rank a)) =
      (ts.firstDeclarator depth tokens).map (ts.rank a) := by
  induction tokens generalizing depth with
  | nil => rfl
  | cons i rest ih =>
    have first := stand i List.mem_cons_self
    have later (depth : Int) := ih depth fun i member => stand i (List.mem_cons_of_mem _ member)
    simp only [List.map_cons, firstDeclarator, core_kind_is first, later]
    split
    · rfl
    · split
      · rfl
      · split <;> rfl

section View

variable {ts : TokenSeq} {a b start stop : Nat}

theorem declarator_stands (above : a ≤ start) (below : stop ≤ b) :
    ∀ i ∈ ts.firstDeclarator 0 (ts.significant start stop), ts.Stands a b i := by
  intro i member
  obtain ⟨tail, split⟩ := ts.first_declarator_front 0 (ts.significant start stop)
  refine significant_stands above below i ?_
  rw [split]
  exact List.mem_append_left _ member

theorem declaration_view_core (above : a ≤ start) (below : stop ≤ b) :
    (ts.core a b).declarationView (ts.rank a start) (ts.rank a stop) =
      ⟨ts.core a b, ((ts.firstDeclarator 0 (ts.significant start stop)).map (ts.rank a)).toArray,
        ts.rank a (min stop ts.size)⟩ := by
  rw [declarationView, ← significant_core above below, min_core_size below, rank_min_size,
    first_declarator_core 0 (significant_stands above below)]

/-- The view of a declaration and that of its core are alike. -/
theorem declaration_view_alike (above : a ≤ start) (below : stop ≤ b) :
    (ts.declarationView start stop).Alike
      ((ts.core a b).declarationView (ts.rank a start) (ts.rank a stop)) := by
  have stand := @declarator_stands ts a b start stop above below
  have limited : min stop ts.size ≤ b := by omega
  rw [declaration_view_core above below, declarationView]
  generalize ts.firstDeclarator 0 (ts.significant start stop) = tokens at stand ⊢
  have there (p : Nat) : ((tokens.map (ts.rank a)).toArray)[p]? = (tokens.toArray[p]?).map (ts.rank a) := by
    simp
  have stands {p i : Nat} (hit : tokens.toArray[p]? = some i) : ts.Stands a b i :=
    stand i (List.mem_of_getElem? (by simpa using hit))
  constructor
  · simp [DeclarationView.size]
  · intro p
    rw [DeclarationView.kind?, DeclarationView.kind?, there]
    cases hit : tokens.toArray[p]? with
    | none => rfl
    | some i => exact (core_kind (stands hit)).symm
  · intro p
    rw [DeclarationView.spelling, DeclarationView.spelling, there]
    cases hit : tokens.toArray[p]? with
    | none => rfl
    | some i => exact (core_spelling (stands hit)).symm
  · intro p
    rw [DeclarationView.isCallShaped, DeclarationView.isCallShaped, there]
    cases hit : tokens.toArray[p]? with
    | none => rfl
    | some i => exact (is_call_shaped_core (stands hit) limited).symm
  · intro p
    rw [DeclarationView.closeOf, DeclarationView.closeOf, there]
    cases hit : tokens.toArray[p]? with
    | none => rfl
    | some i =>
      simp only [Option.map_some, Option.bind_some, ← matching_close_core (stands hit) limited]
      cases closes : ts.matchingClose i (min stop ts.size) with
      | none => rfl
      | some close =>
        have place := close_stands (stands hit).above limited closes
        have same : (fun q : Nat => tokens.toArray[q]? == some close) =
            fun q : Nat => (tokens.map (ts.rank a)).toArray[q]? == some (ts.rank a close) := by
          funext q
          rw [there]
          cases hit' : tokens.toArray[q]? with
          | none => rfl
          | some j =>
            rw [Option.map_some, Option.some_beq_some, Option.some_beq_some, rank_beq (stands hit') place]
        simp only [Option.map_some, DeclarationView.size, same, List.size_toArray, List.length_map]

end View

end TokenSeq

end AllocGuard
