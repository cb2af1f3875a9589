import AllocGuard.Proofs.BracketPairs
import AllocGuard.Proofs.MovedRanges

/-! How far the analysis of a site looks. A site that stands in a statement of its own is told by the
tokens from the start of its region up to the `;` of the statement: it is the same whatever the end of the
body is, and it moves along when these tokens are moved. What does look further is the search for the fate
of the result. -/
namespace AllocGuard

/-- Two sites are made by one call, have the same lvalue and stand in front of the same `;`. -/
structure Site.Agrees (s s' : Site) : Prop where
  allocator : s'.allocator = s.allocator
  call : s'.call = s.call
  close : s'.close = s.close
  subject : s'.subject = s.subject
  semi : s'.statement.map SiteStatement.semi = s.statement.map SiteStatement.semi

namespace TokenSeq

/-- The lvalue that takes the result of a call, the tokens from `floor` on being read. -/
def subjectFrom (ts : TokenSeq) (call floor : Nat) : Option (Nat × Nat) :=
  ((ts.beforeCasts? call floor).filter (ts.hasKind · .assign)).bind (ts.lvalueBefore · floor)

section Window

variable {ts : TokenSeq} {registry : Registry} {floor limit i call floor' limit' : Nat} {s : Site} {t : SiteStatement}

theorem site_at_iff :
    ts.siteAt? registry floor limit i = some s ↔
      (ts.hasKind i .identifier = true ∧ registry.isRegistered (ts.spelling i) = true) ∧
        ∃ opening, ts.nextSignificant (i + 1) limit = some opening ∧
          (ts.hasKind opening .openParen = true ∧ ts.isMember i floor = false) ∧
            ∃ close, ts.matchingClose opening limit = some close ∧
              ∃ allocator, registry.lookup (ts.spelling i) (ts.splitArguments opening close).length = some allocator ∧
                  ts.classify allocator i close (ts.splitArguments opening close) floor limit = s := by
  simp only [siteAt?, Option.bind_eq_bind, Option.bind_eq_some_iff, Option.guard_eq_some',
    Bool.and_eq_true, Bool.not_eq_true', exists_const, Option.pure_def, Option.some.injEq]

theorem sites_iff {stop : Nat} :
    s ∈ ts.sites registry floor stop ↔
      floor ≤ s.call ∧ s.call < min stop ts.size ∧
        ts.siteAt? registry floor (min stop ts.size) s.call = some s := by
  simp only [sites, List.mem_filterMap, Position.mem_range]
  constructor
  · rintro ⟨i, ⟨lower, upper⟩, found⟩
    have call : s.call = i := by
      obtain ⟨_, _, _, _, _, _, _, _, rfl⟩ := site_at_iff.1 found
      rfl
    rw [call]
    exact ⟨lower, upper, found⟩
  · rintro ⟨lower, upper, found⟩
    exact ⟨s.call, ⟨lower, upper⟩, found⟩

/-- A site that has a statement stands in no group, and its `;` comes behind its call. -/
theorem site_at_statement (found : ts.siteAt? registry floor limit i = some s) (stands : s.statement = some t) :
    (ts.callContext i floor).parens = [] ∧ t.start = (ts.callContext i floor).statement ∧
      t.controlled = (ts.callContext i floor).controlled ∧
      ts.statementStop? s.close 0 limit = some t.semi := by
  obtain ⟨_, opening, _, _, close, _, allocator, _, rfl⟩ := site_at_iff.1 found
  simp only [classify] at stands ⊢
  split at stands
  · cases stands
  · rename_i outside
    have outside : (ts.callContext i floor).parens = [] := by simpa using outside
    obtain ⟨semi, stops, rfl⟩ := Option.map_eq_some_iff.1 stands
    rw [outside] at stops
    exact ⟨outside, rfl, rfl, stops⟩

theorem site_at_subject (found : ts.siteAt? registry floor limit i = some s) :
    s.subject = ts.subjectFrom i (ts.callContext i floor).region := by
  obtain ⟨_, opening, _, _, close, _, allocator, _, rfl⟩ := site_at_iff.1 found
  rfl

theorem site_at_bounds (found : ts.siteAt? registry floor limit i = some s) :
    s.call = i ∧ i < s.close ∧ s.close < limit := by
  obtain ⟨_, opening, opens, _, close, closes, allocator, _, rfl⟩ := site_at_iff.1 found
  have bounds := next_significant_bounds opens
  have bounds' := matching_close_bounds closes
  refine ⟨rfl, ?_, ?_⟩
  · show i < close
    omega
  · show close < limit
    omega

theorem classify_agrees {allocator : Allocator} {close : Nat} {arguments : List (Nat × Nat)}
    (parens : (ts.callContext i floor').parens = (ts.callContext i floor).parens)
    (subject : ts.subjectFrom i (ts.callContext i floor').region = ts.subjectFrom i (ts.callContext i floor).region)
    (stop : ts.statementStop? close (ts.callContext i floor).parens.length limit' =
      ts.statementStop? close (ts.callContext i floor).parens.length limit) :
    (ts.classify allocator i close arguments floor limit).Agrees
      (ts.classify allocator i close arguments floor' limit') := by
  refine ⟨rfl, rfl, rfl, subject, ?_⟩
  simp only [classify]
  rw [parens, stop]
  split
  · rfl
  · rw [Option.map_map, Option.map_map]
    rfl

theorem statement_stop_further {depth : Int} {start count count' semi : Nat}
    (hit : ts.statementStopFrom depth start count = some semi) (inside : semi < start + count') :
    ts.statementStopFrom depth start count' = some semi := by
  induction count generalizing depth start count' with
  | zero => cases hit
  | succ count ih =>
    have bounds := statement_stop_bounds hit
    obtain ⟨more, rfl⟩ : ∃ more, count' = more + 1 := ⟨count' - 1, by omega⟩
    rw [statementStopFrom] at hit ⊢
    have later {depth : Int} (hit : ts.statementStopFrom depth (start + 1) count = some semi) :
        ts.statementStopFrom depth (start + 1) more = some semi :=
      ih hit (by omega)
    have brace (hit : (if depth ≤ 0 then none else ts.statementStopFrom depth (start + 1) count) = some semi) :
        (if depth ≤ 0 then none else ts.statementStopFrom depth (start + 1) more) = some semi := by
      split at hit
      · cases hit
      · rename_i inner
        rw [if_neg inner, later hit]
    split at hit
    · exact later hit
    · exact later hit
    · exact later hit
    · exact later hit
    · split at hit
      · rename_i outer
        rw [if_pos outer, hit]
      · rename_i inner
        rw [if_neg inner, later hit]
    · exact brace hit
    · exact brace hit
    · exact later hit
    · cases hit

/-- Another end of the range that lies behind the statement gives the same site. -/
theorem site_at_limit (found : ts.siteAt? registry floor limit i = some s) (stands : s.statement = some t)
    (inside : t.semi < limit') (size : limit' ≤ ts.size) :
    ∃ s', ts.siteAt? registry floor limit' i = some s' ∧ s.Agrees s' := by
  obtain ⟨outside, _, _, stops⟩ := site_at_statement found stands
  obtain ⟨named, opening, opens, called, close, closes, allocator, known, rfl⟩ := site_at_iff.1 found
  have stops : ts.statementStop? close 0 limit = some t.semi := stops
  have behind := statement_stop_bounds stops
  have bounds := matching_close_bounds closes
  have opens' : ts.nextSignificant (i + 1) limit' = some opening := by
    obtain ⟨lower, _, carries, blank⟩ := next_significant_iff.1 opens
    exact next_significant_iff.2 ⟨lower, by omega, carries, blank⟩
  have closes' : ts.matchingClose opening limit' = some close := matching_close_further closes (by omega)
  have stops' : ts.statementStop? close 0 limit' = some t.semi := by
    rw [statementStop?, Nat.min_eq_left size]
    exact statement_stop_further stops (by omega)
  refine ⟨_, site_at_iff.2 ⟨named, opening, opens', called, close, closes', allocator, known, rfl⟩, ?_⟩
  refine classify_agrees rfl rfl ?_
  rw [outside, List.length_nil]
  exact stops'.trans stops.symm

/-! ## Where the reading starts -/

/-- A floor from which the context of the call and its lvalue are the same gives the same site. -/
theorem site_at_floor {floor' : Nat} (found : ts.siteAt? registry floor limit i = some s)
    (member : ts.isMember i floor' = ts.isMember i floor)
    (parens : (ts.callContext i floor').parens = (ts.callContext i floor).parens)
    (subject : ts.subjectFrom i (ts.callContext i floor').region = s.subject) :
    ∃ s', ts.siteAt? registry floor' limit i = some s' ∧ s.Agrees s' := by
  rw [site_at_subject found] at subject
  obtain ⟨named, opening, opens, ⟨isParen, free⟩, close, closes, allocator, known, rfl⟩ := site_at_iff.1 found
  exact ⟨_, site_at_iff.2 ⟨named, opening, opens, ⟨isParen, member.trans free⟩, close, closes, allocator, known,
    rfl⟩, classify_agrees parens subject rfl⟩

theorem prev_significant_lower {prev : Nat} (precedes : ts.prevSignificant i floor = some prev)
    (lower : floor' ≤ floor) : ts.prevSignificant i floor' = some prev := by
  obtain ⟨above, below, carries, blank⟩ := prev_significant_iff.1 precedes
  exact prev_significant_iff.2 ⟨Nat.le_trans lower above, below, carries, blank⟩

/-- A call with an lvalue has something in front, and whether that makes it a member does not depend on
the floor. -/
theorem is_member_lower {subject : Nat × Nat} (takes : ts.subjectFrom i floor = some subject) (lower : floor' ≤ floor) :
    ts.isMember i floor' = ts.isMember i floor := by
  obtain ⟨left, left_eq, _⟩ := Option.bind_eq_some_iff.1 takes
  have casts := (Option.filter_eq_some_iff.1 left_eq).1
  rw [before_casts_eq] at casts
  obtain ⟨prev, precedes, _⟩ := Option.bind_eq_some_iff.1 casts
  rw [isMember, isMember, precedes, prev_significant_lower precedes lower]

theorem context_region_eq (ts : TokenSeq) (call floor : Nat) :
    (ts.callContext call floor).region =
      ((Position.lastIn? (fun q => ts.hasKind q .openBrace || ts.hasKind q .closeBrace) floor call).map
        (· + 1)).getD floor := rfl

/-- No brace stands between the start of the region and the call. -/
theorem region_clear {call q : Nat} (lower : (ts.callContext call floor).region ≤ q) (upper : q < call) :
    (ts.hasKind q .openBrace || ts.hasKind q .closeBrace) = false := by
  rw [context_region_eq] at lower
  cases last : Position.lastIn? (fun q => ts.hasKind q .openBrace || ts.hasKind q .closeBrace) floor call with
  | none =>
    rw [last] at lower
    exact Position.last_none last lower upper
  | some brace =>
    rw [last] at lower
    exact (Position.last_iff.1 last).2.2.2 q lower upper

theorem region_floor
    (clear : ∀ q, floor ≤ q → q < call → (ts.hasKind q .openBrace || ts.hasKind q .closeBrace) = false) :
    (ts.callContext call floor).region = floor := by
  rw [context_region_eq]
  cases last : Position.lastIn? (fun q => ts.hasKind q .openBrace || ts.hasKind q .closeBrace) floor call with
  | none => rfl
  | some brace =>
    obtain ⟨lower, upper, isBrace, _⟩ := Position.last_iff.1 last
    rw [clear brace lower upper] at isBrace
    cases isBrace

theorem region_brace {brace : Nat} (lower : floor ≤ brace) (upper : brace < call)
    (opens : ts.kind? brace = some .openBrace)
    (clear : ∀ q, brace < q → q < call → (ts.hasKind q .openBrace || ts.hasKind q .closeBrace) = false) :
    (ts.callContext call floor).region = brace + 1 := by
  have here : (ts.hasKind brace .openBrace || ts.hasKind brace .closeBrace) = true := by
    rw [has_kind_of_kind opens]
    rfl
  rw [context_region_eq, Position.last_iff.2 ⟨lower, upper, here, clear⟩]
  rfl

/-- At the start of a statement all parentheses of its region are closed. -/
theorem parens_at_statement (above : floor ≤ call) (carries : ts.isSignificant call = true) :
    ts.parensAt (ts.callContext call floor).region (ts.callContext call floor).statement = [] := by
  obtain ⟨lower, _, _, starts⟩ := call_context_starts above carries
  generalize (ts.callContext call floor).statement = start at lower starts ⊢
  generalize (ts.callContext call floor).region = region at lower starts ⊢
  have none : ts.parensAt region region = [] := by
    rw [parensAt, Position.range, Nat.sub_self]
    rfl
  cases precedes : ts.prevSignificant start region with
  | none =>
    rw [parens_at_keeps (Nat.le_refl region) (keeps_blank lower fun q => prev_significant_none precedes), none]
  | some p =>
    obtain ⟨above, _⟩ := prev_significant_bounds precedes
    obtain ⟨controlled, edge⟩ := starts.front p precedes
    rw [parens_at_keeps (by omega) (keeps_prev precedes)]
    have step : ts.parensAt region (p + 1) = ts.parenStep (ts.parensAt region p) p := by
      rw [parensAt, Position.range_append above (Nat.le_succ p), Position.range_single, List.foldl_append]
      rfl
    rw [step]
    cases edge with
    | semicolon seen outside => rw [paren_step_token _ seen rfl rfl, outside]
    | colon seen outside => rw [paren_step_token _ seen rfl rfl, outside]
    | word seen outside =>
      rcases seen with seen | seen
      all_goals rw [paren_step_token _ (ident_kind seen).1 rfl rfl, outside]
    | head seen closes _ =>
      rw [paren_step_close _ (has_kind_iff.2 seen), closes]
      rfl

/-- What is controlled has an edge right in front. -/
theorem controlled_front (above : floor ≤ call) (carries : ts.isSignificant call = true)
    (controlled : (ts.callContext call floor).controlled = true) :
    ∃ p held, ts.prevSignificant (ts.callContext call floor).statement (ts.callContext call floor).region = some p ∧
      ts.Edge (ts.callContext call floor).region p held := by
  obtain ⟨_, _, _, starts⟩ := call_context_starts above carries
  cases precedes : ts.prevSignificant (ts.callContext call floor).statement (ts.callContext call floor).region with
  | some p =>
    obtain ⟨held, edge⟩ := starts.front p precedes
    exact ⟨p, held, rfl, edge⟩
  | none =>
    have told : (ts.callContext call floor).controlled =
        ((ts.scanTo (ts.callContext call floor).region call).edge.map (·.2)).getD false := rfl
    rcases ts.scan_to_edge (call_context_region above) with ⟨e, held, _, lower, upper, edge, _⟩ | ⟨seen, _⟩
    · have before : e < (ts.callContext call floor).statement :=
        Nat.lt_of_not_ge fun behind => starts.inside e behind upper held edge
      have blank := prev_significant_none precedes lower before
      rw [edge_significant edge] at blank
      cases blank
    · rw [told, seen] at controlled
      cases controlled

/-- Read from the start of its statement on, a call has the same parentheses around it. -/
theorem context_of_statement (above : floor ≤ call) (carries : ts.isSignificant call = true) :
    (ts.callContext call (ts.callContext call floor).statement).region =
        (ts.callContext call floor).statement ∧
      (ts.callContext call (ts.callContext call floor).statement).parens =
        (ts.callContext call floor).parens := by
  obtain ⟨lower, upper, _, _⟩ := call_context_starts above carries
  have outside := parens_at_statement above carries
  have region : (ts.callContext call (ts.callContext call floor).statement).region =
      (ts.callContext call floor).statement :=
    region_floor fun q behind => region_clear (Nat.le_trans lower behind)
  refine ⟨region, ?_⟩
  rw [call_context_parens, call_context_parens, region, parensAt, parensAt,
    Position.range_append lower upper, List.foldl_append]
  rw [parensAt] at outside
  rw [outside]

/-- A site whose lvalue is the same when its statement is read alone is the same then. -/
theorem site_at_own_statement (found : ts.siteAt? registry floor limit i = some s) (stands : s.statement = some t)
    (above : floor ≤ i) (some : s.subject.isSome = true) (subject : ts.subjectFrom i t.start = s.subject) :
    ∃ s', ts.siteAt? registry t.start limit i = .some s' ∧ s.Agrees s' := by
  obtain ⟨_, start, _, _⟩ := site_at_statement found stands
  obtain ⟨⟨named, _⟩, _⟩ := site_at_iff.1 found
  have carries : ts.isSignificant i = true := significant_of_kind (has_kind_iff.1 named) rfl
  obtain ⟨region, parens⟩ := context_of_statement above carries
  obtain ⟨lower, _⟩ := call_context_starts above carries
  have floors : floor ≤ (ts.callContext i floor).region :=
    (context_region_core (b := i) (Nat.le_refl floor) above (Nat.le_refl i)).1
  obtain ⟨range, takes⟩ := Option.isSome_iff_exists.1 some
  rw [← start] at region parens lower
  refine site_at_floor found ?_ parens (by rw [region, subject])
  exact (is_member_lower (subject.trans takes) (Nat.le_trans floors lower)).symm

end Window

/-! ## Ranges that are moved -/

section Moved

variable {ts ts' : TokenSeq} {a b a' b' shift : Nat}

theorem rel_map {α β : Type} {r : α → β → Prop} {f : α → β} (same : ∀ x y, r x y → y = f x) {o : Option α}
    {o' : Option β} (rel : Option.Rel r o o') : o' = o.map f := by
  cases rel with
  | some related => rw [same _ _ related, Option.map_some]
  | none => rfl

/-- The sites of such a range are moved with it. -/
theorem site_at_moved (moved : Moved ts ts' a b a' b' shift) (inside : b ≤ ts.size) (inside' : b' ≤ ts'.size)
    {registry : Registry} {s : Site} (lower : a ≤ s.call) (found : ts.siteAt? registry a b s.call = some s) :
    ∃ s', ts'.siteAt? registry a' b' (s.call + shift) = some s' ∧ s'.allocator = s.allocator ∧
      s'.subject = s.subject.map (fun range => (range.1 + shift, range.2 + shift)) ∧
      s'.statement.map SiteStatement.semi = (s.statement.map SiteStatement.semi).map (· + shift) := by
  have origin (ts : TokenSeq) (a : Nat) : ts.rank a a = 0 := by
    rw [TokenSeq.rank, Nat.sub_self, weight_zero]
  obtain ⟨⟨named, _⟩, _⟩ := site_at_iff.1 found
  have bounds := site_at_bounds found
  have stands : ts.Stands a b s.call := ⟨lower, by omega, significant_of_kind (has_kind_iff.1 named) rfl⟩
  have stands' := moved.stands stands
  have core := @site_at_core _ _ _ registry _ _ _ (Nat.le_refl a) lower (Nat.le_refl b) stands
  have core' := @site_at_core _ _ _ registry _ _ _ (Nat.le_refl a') stands'.above (Nat.le_refl b') stands'
  rw [core_of_meaning_in moved.meaning, origin, moved.rank stands, ← core_size,
    core_of_meaning_in moved.meaning, core_size, ← origin ts a, core, found, Option.map_some] at core'
  obtain ⟨s', found', same⟩ := Option.map_eq_some_iff.1 core'.symm
  have call' := (site_at_bounds found').1
  have member : s ∈ ts.sites registry a b := sites_iff.2
    ⟨lower, by rw [Nat.min_eq_left inside]; exact stands.below, by rwa [Nat.min_eq_left inside]⟩
  have member' : s' ∈ ts'.sites registry a' b' := sites_iff.2
    ⟨by rw [call']; exact stands'.above, by rw [Nat.min_eq_left inside', call']; exact stands'.below,
      by rwa [Nat.min_eq_left inside', call']⟩
  have alike := site_alike (site_stands member) (site_stands member') same.symm
  refine ⟨s', found', alike.allocator.symm, ?_, ?_⟩
  · refine rel_map (fun range range' places => ?_) alike.subject
    obtain ⟨first, last, last', ends, ends', final⟩ := places
    have start := moved.same_place first
    have stop := moved.same_place final
    exact Prod.ext start (by omega)
  · have statements := rel_map (f := fun held => ⟨held.start + shift, held.semi + shift, held.controlled⟩)
      (fun held held' places => ?_) alike.statement
    · rw [statements, Option.map_map, Option.map_map]
      rfl
    · obtain ⟨starts, stops, controlled⟩ := places
      cases held'
      rw [SiteStatement.mk.injEq]
      exact ⟨moved.same_place starts, moved.same_place stops, controlled.symm⟩

end Moved

end TokenSeq

end AllocGuard
