import ZephyrThrift.Foundation.Tokens

/-!
# Greedy parses

A matcher goes over a source once and, where it stands, looks at one earlier position only: the last
of the starts of its tokens that has the same key. `GreedyFrom` says which tokens this gives, in terms
of the source and of the keys alone. There is at most one such parse (`GreedyFrom.unique`), so a
matcher whose tokens are shown to be one is known completely, however it finds them.
-/

set_option autoImplicit false
set_option relaxedAutoImplicit false

namespace ZephyrThrift.Foundation

/-- What a matcher is set to: the key of a position, how far back it may go, and the lengths of its
matches. The last `shortest` bytes of a source are not matched. -/
structure MatchRules (κ : Type*) where
  key : ℕ → κ
  window : ℕ
  shortest : ℕ
  longest : ℕ

section Rules

variable {κ : Type*} (rules : MatchRules κ) (source : List UInt8)

/-- The bytes at an earlier place of the source are those at the position. -/
def SameAt (earlier position count : ℕ) : Prop :=
  ∀ k < count, source[earlier + k]? = source[position + k]?

/-- The one place that a match at `position` may go back to. -/
structure Candidate (starts : List ℕ) (position earlier : ℕ) : Prop where
  mem : earlier ∈ starts
  key : rules.key earlier = rules.key position
  last : ∀ start ∈ starts, rules.key start = rules.key position → start ≤ earlier
  near : position - earlier ≤ rules.window
  same : SameAt source earlier position rules.shortest

/-- A match is extended as long as the bytes agree, it is not the longest, and it stays in front of
the end. -/
structure Longest (earlier position length : ℕ) : Prop where
  shortest_le : rules.shortest ≤ length
  le_longest : length ≤ rules.longest
  same : SameAt source earlier position length
  within : length = rules.shortest ∨ position + length + rules.shortest ≤ source.length
  maximal : length = rules.longest ∨ source.length ≤ position + length + rules.shortest ∨
    source[earlier + length]? ≠ source[position + length]?

/-- The tokens from a position on, behind tokens that begin at `starts`. -/
inductive GreedyFrom : List ℕ → ℕ → List Token → Prop
  | done (starts : List ℕ) : GreedyFrom starts source.length []
  | literal {starts : List ℕ} {position : ℕ} {byte : UInt8} {tokens : List Token}
      (hbyte : source[position]? = some byte)
      (hnone : position + rules.shortest < source.length →
        ∀ earlier, ¬ Candidate rules source starts position earlier)
      (h : GreedyFrom (position :: starts) (position + 1) tokens) :
      GreedyFrom starts position (.literal byte :: tokens)
  | copy {starts : List ℕ} {position earlier length : ℕ} {tokens : List Token}
      (hroom : position + rules.shortest < source.length)
      (hcandidate : Candidate rules source starts position earlier)
      (hlongest : Longest rules source earlier position length)
      (h : GreedyFrom (position :: starts) (position + length) tokens) :
      GreedyFrom starts position (.copy (position - earlier) length :: tokens)

end Rules

variable {κ : Type*} {rules : MatchRules κ} {source : List UInt8}

theorem Candidate.unique {starts : List ℕ} {position earlier other : ℕ}
    (h : Candidate rules source starts position earlier)
    (h' : Candidate rules source starts position other) : earlier = other :=
  le_antisymm (h'.last _ h.mem h.key) (h.last _ h'.mem h'.key)

/-- A longer match goes on where a shorter one had a reason to stop. -/
theorem Longest.le {earlier position length other : ℕ}
    (h : Longest rules source earlier position length)
    (h' : Longest rules source earlier position other) : other ≤ length := by
  by_contra hlonger
  have hlt : length < other := not_le.mp hlonger
  have hshortest := h.shortest_le
  have hlongest := h'.le_longest
  have hwithin : position + other + rules.shortest ≤ source.length :=
    h'.within.resolve_left (by omega)
  rcases h.maximal with hfull | hend | hdiffer
  · omega
  · omega
  · exact hdiffer (h'.same length hlt)

theorem Longest.unique {earlier position length other : ℕ}
    (h : Longest rules source earlier position length)
    (h' : Longest rules source earlier position other) : length = other :=
  le_antisymm (h'.le h) (h.le h')

/-- There is at most one greedy parse. -/
theorem GreedyFrom.unique {starts : List ℕ} {position : ℕ} {tokens : List Token}
    (h : GreedyFrom rules source starts position tokens) :
    ∀ {others : List Token}, GreedyFrom rules source starts position others → others = tokens := by
  induction h with
  | done starts =>
    intro others h'
    cases h' with
    | done => rfl
    | literal hbyte _ _ =>
      rw [List.getElem?_eq_none le_rfl] at hbyte
      cases hbyte
    | copy hroom _ _ _ => exact absurd hroom (by omega)
  | literal hbyte hnone _ ih =>
    intro others h'
    cases h' with
    | done =>
      rw [List.getElem?_eq_none le_rfl] at hbyte
      cases hbyte
    | literal hbyte' _ hrest =>
      rw [hbyte, Option.some.injEq] at hbyte'
      rw [hbyte', ih hrest]
    | copy hroom hcandidate _ _ => exact absurd hcandidate (hnone hroom _)
  | copy hroom hcandidate hlongest _ ih =>
    intro others h'
    cases h' with
    | done => exact absurd hroom (by omega)
    | literal _ hnone _ => exact absurd hcandidate (hnone hroom _)
    | copy _ hcandidate' hlongest' hrest =>
      obtain rfl := hcandidate.unique hcandidate'
      obtain rfl := hlongest.unique hlongest'
      rw [ih hrest]

end ZephyrThrift.Foundation
