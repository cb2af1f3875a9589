import Mathlib.Data.List.Forall2
import AllocGuard.Proofs.SiteBlindness

/-! What is said about the sites of a range is decided inside the range, by the tokens that carry
meaning. Two ranges, of one sequence or of two, in which these tokens are the same have the same
sites, whatever stands between the tokens and whatever surrounds the ranges. -/
namespace AllocGuard.TokenSeq

/-- A token of `[a, b)` and one of `[a', b')` stand at the same place among the tokens of their
ranges that carry meaning. -/
def SamePlace (ts : TokenSeq) (a b : Nat) (ts' : TokenSeq) (a' b' i i' : Nat) : Prop :=
  ∃ place : Nat, (ts.significant a b)[place]? = some i ∧ (ts'.significant a' b')[place]? = some i'

/-- The tokens that a site names carry meaning and stand in its range. -/
structure SiteStands (ts : TokenSeq) (a b : Nat) (site : Site) : Prop where
  call : ts.Stands a b site.call
  close : ts.Stands a b site.close
  subject : ∀ start stop, site.subject = some (start, stop) →
    ts.Stands a b start ∧ ∃ last, stop = last + 1 ∧ ts.Stands a b last
  statement : ∀ held, site.statement = some held → ts.Stands a b held.start ∧ ts.Stands a b held.semi

/-- Two sites of which the same is said. Their tokens stand at the same places, the lvalue from its
first to its last token. -/
structure SiteAlike (ts : TokenSeq) (a b : Nat) (ts' : TokenSeq) (a' b' : Nat) (site site' : Site) :
    Prop where
  allocator : site.allocator = site'.allocator
  resource : site.resource = site'.resource
  form : site.form = site'.form
  isReturn : site.isReturn = site'.isReturn
  checked : site.checked = site'.checked
  usedBeforeCheck : site.usedBeforeCheck = site'.usedBeforeCheck
  call : ts.SamePlace a b ts' a' b' site.call site'.call
  close : ts.SamePlace a b ts' a' b' site.close site'.close
  subject : Option.Rel (fun range range' => ts.SamePlace a b ts' a' b' range.1 range'.1 ∧
    ∃ last last', range.2 = last + 1 ∧ range'.2 = last' + 1 ∧ ts.SamePlace a b ts' a' b' last last')
    site.subject site'.subject
  statement : Option.Rel (fun held held' => ts.SamePlace a b ts' a' b' held.start held'.start ∧
    ts.SamePlace a b ts' a' b' held.semi held'.semi ∧ held.controlled = held'.controlled)
    site.statement site'.statement

/-! ## Ranks are places -/

theorem significant_at_rank {ts : TokenSeq} {a b i : Nat} (stands : ts.Stands a b i) :
    (ts.significant a b)[ts.rank a i]? = some i := by
  rw [significant_split stands, rank_length, List.getElem?_append_right (Nat.le_refl _), Nat.sub_self]
  rfl

section Pairs

variable {ts ts' : TokenSeq} {a b a' b' : Nat}

theorem same_place_of_rank {i i' : Nat} (stands : ts.Stands a b i) (stands' : ts'.Stands a' b' i')
    (same : ts.rank a i = ts'.rank a' i') : ts.SamePlace a b ts' a' b' i i' :=
  ⟨ts.rank a i, significant_at_rank stands, same ▸ significant_at_rank stands'⟩

/-- Every token that is named in a site was found by a search for tokens that carry meaning. -/
theorem site_stands {registry : Registry} {site : Site} (found : site ∈ ts.sites registry a b) :
    ts.SiteStands a b site := by
  obtain ⟨allocator, call, opening, close, arguments, lower, upper, isName, opens, closes, rfl⟩ := site_call found
  have bound : min b ts.size ≤ b := Nat.min_le_left _ _
  have carries : ts.isSignificant call = true := significant_of_kind isName rfl
  have before : call ≤ b := by omega
  have region : a ≤ (ts.callContext call a).region := (context_region_core (b := b) (Nat.le_refl a) lower before).1
  have opening_above := (next_stands (Nat.le_succ_of_le lower) bound opens).above
  have closing := close_stands opening_above bound closes
  refine ⟨⟨lower, Nat.lt_of_lt_of_le upper bound, carries⟩, closing, fun start stop takes => ?_, fun held holds => ?_⟩
  · obtain ⟨assign, left, lvalue⟩ := Option.bind_eq_some_iff.1 takes
    have bounds := before_casts_bounds (Option.filter_eq_some_iff.1 left).1
    obtain ⟨last, _, ends, _, rfl, _⟩ := lvalue_before_cases lvalue
    exact ⟨(subject_stands region before takes).1, last, rfl, prev_stands region (by omega) ends⟩
  · simp only [classify] at holds
    split at holds
    · cases holds
    · obtain ⟨semi, stops, rfl⟩ := Option.map_eq_some_iff.1 holds
      obtain ⟨first, last, meaning, _⟩ := call_context_starts lower carries
      have bounds := statement_stop_bounds stops
      have behind := closing.above
      have starts : ts.Stands a b (ts.callContext call a).statement := ⟨by omega, by omega, meaning⟩
      have ends : ts.Stands a b semi := ⟨by omega, by omega, significant_of_kind (statement_stop_kind stops) rfl⟩
      exact ⟨starts, ends⟩

/-- Sites that are one site of the core are alike. -/
theorem site_alike {site site' : Site} (stands : ts.SiteStands a b site) (stands' : ts'.SiteStands a' b' site')
    (same : site.relocate (ts.rank a) = site'.relocate (ts'.rank a')) : ts.SiteAlike a b ts' a' b' site site' := by
  simp only [Site.relocate, Site.mk.injEq] at same
  obtain ⟨allocator, call, close, form, subject, resource, statement, checked, used⟩ := same
  refine ⟨allocator, resource, form, congrArg (· == SiteForm.returned) form, checked, used,
    same_place_of_rank stands.call stands'.call call,
    same_place_of_rank stands.close stands'.close close, ?_, ?_⟩
  · cases taken : site.subject with
    | none =>
      rw [taken, Option.map_none] at subject
      rw [Option.map_eq_none_iff.1 subject.symm]
      exact .none
    | some range =>
      rw [taken, Option.map_some] at subject
      obtain ⟨range', taken', places⟩ := Option.map_eq_some_iff.1 subject.symm
      obtain ⟨starts, stops⟩ := Prod.mk.inj places
      obtain ⟨first, last, ends, final⟩ := stands.subject _ _ taken
      obtain ⟨first', last', ends', final'⟩ := stands'.subject _ _ taken'
      rw [ends, ends', rank_meaning final.above final.carries, rank_meaning final'.above final'.carries,
        Nat.add_right_cancel_iff] at stops
      rw [taken']
      exact .some ⟨same_place_of_rank first first' starts.symm, last, last', ends, ends',
        same_place_of_rank final final' stops.symm⟩
  · cases held : site.statement with
    | none =>
      rw [held, Option.map_none] at statement
      rw [Option.map_eq_none_iff.1 statement.symm]
      exact .none
    | some t =>
      rw [held, Option.map_some] at statement
      obtain ⟨t', held', places⟩ := Option.map_eq_some_iff.1 statement.symm
      obtain ⟨starts, stops, controlled⟩ := SiteStatement.mk.inj places
      obtain ⟨first, final⟩ := stands.statement _ held
      obtain ⟨first', final'⟩ := stands'.statement _ held'
      rw [held']
      exact .some ⟨same_place_of_rank first first' starts.symm,
        same_place_of_rank final final' stops.symm, controlled.symm⟩

end Pairs

/-- Ranges with the same meaning have the same sites, one by one. Neither the white space and the
comments inside a range nor anything outside it has a say. -/
theorem sites_by_meaning (registry : Registry) (ts ts' : TokenSeq) (a b a' b' : Nat)
    (same : ts.meaningIn a b = ts'.meaningIn a' b') :
    List.Forall₂ (ts.SiteAlike a b ts' a' b') (ts.sites registry a b) (ts'.sites registry a' b') := by
  have origin (ts : TokenSeq) (a : Nat) : ts.rank a a = 0 := by
    rw [rank, Nat.sub_self, weight_zero]
  have relocated : (ts.sites registry a b).map (Site.relocate (ts.rank a)) =
      (ts'.sites registry a' b').map (Site.relocate (ts'.rank a')) := by
    rw [sites_core (Nat.le_refl a) (Nat.le_refl b), sites_core (Nat.le_refl a') (Nat.le_refl b'), origin,
      origin, ← core_size, ← core_size, core_of_meaning_in same]
  refine List.forall₂_iff_get.2 ⟨by simpa using congrArg List.length relocated, fun i inside inside' => ?_⟩
  have pair := congrArg (·[i]?) relocated
  simp only [List.getElem?_map, List.getElem?_eq_getElem inside, List.getElem?_eq_getElem inside',
    Option.map_some, Option.some.injEq] at pair
  exact site_alike (site_stands (List.getElem_mem inside)) (site_stands (List.getElem_mem inside')) pair

theorem sites_by_meaning_respaced :
    let ts := ofSource
      "void f(void) \x7b char *p = /* c */ malloc(1); if (n) p->q = strdup (s); \x7d"
    let ts' := ofSource
      "malloc(2); p = \x7bchar*p=malloc(1);\n\nif(n) // n\n p -> q=strdup(s);\x7d if (p)"
    ts.meaningIn 7 44 = ts'.meaningIn 10 40 ∧
      (ts.sites (.withExtra []) 7 44).map (fun site => (site.call, site.form, site.usedBeforeCheck)) =
        [(18, .declaration, true), (36, .assignment, false)] ∧
      List.Forall₂ (ts.SiteAlike 7 44 ts' 10 40) (ts.sites (.withExtra []) 7 44)
        (ts'.sites (.withExtra []) 10 40) := by
  intro ts ts'
  have same : ts.meaningIn 7 44 = ts'.meaningIn 10 40 := by decide +kernel
  exact ⟨same, by decide +kernel, sites_by_meaning (.withExtra []) ts ts' 7 44 10 40 same⟩

end AllocGuard.TokenSeq
