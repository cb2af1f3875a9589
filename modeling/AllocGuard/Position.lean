/-! Searching a range of positions. Both searches are bounded by a count, so they end
whatever the test says, and each finds the extreme position of its range. -/
namespace AllocGuard.Position

/-- The least of the `count` positions from `start` on of which `p` holds. -/
def first? (p : Nat → Bool) (start : Nat) : Nat → Option Nat
  | 0 => none
  | count + 1 => if p start then some start else first? p (start + 1) count

/-- The greatest of the `count` positions from `start` on of which `p` holds. -/
def last? (p : Nat → Bool) (start : Nat) : Nat → Option Nat
  | 0 => none
  | count + 1 => if p (start + count) then some (start + count) else last? p start count

/-- The least position in `[start, stop)` of which `p` holds. -/
def firstIn? (p : Nat → Bool) (start stop : Nat) : Option Nat :=
  first? p start (stop - start)

/-- The greatest position in `[start, stop)` of which `p` holds. -/
def lastIn? (p : Nat → Bool) (start stop : Nat) : Option Nat :=
  last? p start (stop - start)

/-- The positions of `[start, stop)` in order. -/
def range (start stop : Nat) : List Nat :=
  List.range' start (stop - start)

theorem first_bounds {p : Nat → Bool} {start count found : Nat}
    (hit : first? p start count = some found) :
    start ≤ found ∧ found < start + count ∧ p found = true := by
  induction count generalizing start with
  | zero => simp [first?] at hit
  | succ count ih =>
    rw [first?] at hit
    split at hit
    · cases hit
      exact ⟨Nat.le_refl _, by omega, by assumption⟩
    · have bounds := ih hit
      exact ⟨by omega, by omega, bounds.2.2⟩

theorem last_bounds {p : Nat → Bool} {start count found : Nat}
    (hit : last? p start count = some found) :
    start ≤ found ∧ found < start + count ∧ p found = true := by
  induction count with
  | zero => simp [last?] at hit
  | succ count ih =>
    rw [last?] at hit
    split at hit
    · cases hit
      exact ⟨by omega, by omega, by assumption⟩
    · have bounds := ih hit
      exact ⟨bounds.1, by omega, bounds.2.2⟩

/-- What is found lies in the range and passes the test. -/
theorem first_in_bounds {p : Nat → Bool} {start stop found : Nat}
    (hit : firstIn? p start stop = some found) :
    start ≤ found ∧ found < stop ∧ p found = true := by
  have bounds := first_bounds hit
  exact ⟨bounds.1, by omega, bounds.2.2⟩

theorem last_in_bounds {p : Nat → Bool} {start stop found : Nat}
    (hit : lastIn? p start stop = some found) :
    start ≤ found ∧ found < stop ∧ p found = true := by
  have bounds := last_bounds hit
  exact ⟨bounds.1, by omega, bounds.2.2⟩

end AllocGuard.Position
