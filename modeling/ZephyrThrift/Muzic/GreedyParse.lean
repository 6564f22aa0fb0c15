import ZephyrThrift.Foundation.GreedyParse
import ZephyrThrift.Muzic.MatcherCalls

/-!
# What the matcher finds

The hash table of `uzlib_compress` stands for the last token that began with the same hash
(`Remembers`). So the calls of the matcher are the greedy parse of the source, which is defined
without a table (`uzlibCompress_greedy`): it never takes a match that is shorter than it could be, and
it never misses the place that the table is meant to remember.
-/

set_option autoImplicit false
set_option relaxedAutoImplicit false

namespace ZephyrThrift.Muzic

open Foundation

/-- What `genlz77.c` is set to for a compressor. -/
def matchRules (data : UzlibComp) (source : List UInt8) : MatchRules (Except Fault ℕ) where
  key := hashAt data.hashBits source
  window := data.dictSize
  shortest := minMatch
  longest := maxMatch

/-- Every bucket holds the last of the starts with its hash. -/
def Remembers (data : UzlibComp) (source : List UInt8) (starts : List ℕ) : Prop :=
  ∀ h, match data.hashTable h with
    | none => ∀ start ∈ starts, hashAt data.hashBits source start ≠ .ok h
    | some last => last ∈ starts ∧ hashAt data.hashBits source last = .ok h ∧
        ∀ start ∈ starts, hashAt data.hashBits source start = .ok h → start ≤ last

section Source

variable {source : List UInt8}

/-- Entering a position keeps the table right, as long as the positions ascend. -/
theorem Remembers.entering {data : UzlibComp} {starts : List ℕ} {src h : ℕ}
    (hremembers : Remembers data source starts) (hascends : ∀ start ∈ starts, start < src)
    (hhash : hashAt data.hashBits source src = .ok h) :
    Remembers (data.entering h src) source (src :: starts) := by
  intro bucket
  have hkept := hremembers bucket
  by_cases hsame : bucket = h
  · subst hsame
    simp only [UzlibComp.entering, Function.update_self]
    refine ⟨List.mem_cons_self, hhash, fun start hmem _ ↦ ?_⟩
    rcases List.mem_cons.mp hmem with rfl | hmem
    · exact le_rfl
    · exact (hascends start hmem).le
  · have hother : hashAt data.hashBits source src ≠ .ok bucket := by
      intro heq
      rw [hhash, Except.ok.injEq] at heq
      exact hsame heq.symm
    simp only [UzlibComp.entering, Function.update_of_ne hsame]
    cases hbucket : data.hashTable bucket with
    | none =>
      simp only [hbucket] at hkept ⊢
      intro start hmem
      rcases List.mem_cons.mp hmem with rfl | hmem
      · exact hother
      · exact hkept start hmem
    | some last =>
      simp only [hbucket] at hkept ⊢
      obtain ⟨hmem, hkey, hlast⟩ := hkept
      refine ⟨List.mem_cons_of_mem _ hmem, hkey, fun start hstart heq ↦ ?_⟩
      rcases List.mem_cons.mp hstart with rfl | hstart
      · exact absurd heq hother
      · exact hlast start hstart heq

/-- The comparison in front of a match is exact. -/
theorem memEqual_iff (count : ℕ) :
    ∀ {first second : ℕ} {equal : Bool}, first + count ≤ source.length →
      second + count ≤ source.length → memEqual source first second count = .ok equal →
        (equal = true ↔ SameAt source second first count) := by
  induction count with
  | zero =>
    intro first second equal _ _ h
    cases h
    exact ⟨fun _ k hk ↦ absurd hk (Nat.not_lt_zero k), fun _ ↦ rfl⟩
  | succ count ih =>
    intro first second equal hfirst hsecond h
    have hfirst' : first < source.length := by omega
    have hsecond' : second < source.length := by omega
    simp only [memEqual, readSource_eq hfirst', readSource_eq hsecond', bind, Except.bind] at h
    by_cases hbyte : source[first] = source[second]
    · rw [if_pos hbyte] at h
      rw [ih (by omega) (by omega) h]
      constructor
      · intro hsame k hk
        cases k with
        | zero =>
          rw [Nat.add_zero, Nat.add_zero, List.getElem?_eq_getElem hfirst',
            List.getElem?_eq_getElem hsecond', hbyte]
        | succ k =>
          have := hsame k (by omega)
          rwa [Nat.add_assoc, Nat.add_assoc, Nat.add_comm 1 k] at this
      · intro hsame k hk
        have := hsame (k + 1) (by omega)
        rwa [Nat.add_comm k 1, ← Nat.add_assoc, ← Nat.add_assoc] at this
    · rw [if_neg hbyte] at h
      cases h
      refine iff_of_false (by decide) fun hsame ↦ hbyte ?_
      have hzero := hsame 0 (Nat.succ_pos _)
      rw [Nat.add_zero, Nat.add_zero, List.getElem?_eq_getElem hfirst',
        List.getElem?_eq_getElem hsecond', Option.some.injEq] at hzero
      exact hzero.symm

/-- Where the loop that extends a match stops. -/
theorem extendMatch_longest {data : UzlibComp} (fuel : ℕ) :
    ∀ {src m len len' : ℕ}, src + len < source.length → m < src → minMatch ≤ len → len ≤ maxMatch →
      (len = minMatch ∨ src + len + minMatch ≤ source.length) → SameAt source m src len →
        extendMatch source ((source.length : ℤ) - minMatch) fuel (src + len) (m + len) len = .ok len' →
          Longest (matchRules data source) source m src len' := by
  induction fuel with
  | zero => intro src m len len' _ _ _ _ _ _ h; cases h
  | succ fuel ih =>
    intro src m len len' hsrc hm hmin hmax hwithin hsame h
    have hm' : m + len < source.length := by omega
    simp only [extendMatch, readSource_eq hsrc, readSource_eq hm', bind, Except.bind] at h
    split at h
    · rename_i hmore
      obtain ⟨hbyte, hshort, hbefore⟩ := hmore
      have hpositive : 0 < minMatch := by decide
      refine @ih src m (len + 1) len' (by omega) hm (by omega) hshort (.inr (by omega)) ?_ h
      intro k hk
      rcases Nat.lt_succ_iff_lt_or_eq.mp hk with hlt | rfl
      · exact hsame k hlt
      · rw [List.getElem?_eq_getElem hm', List.getElem?_eq_getElem hsrc, hbyte]
    · rename_i hstop
      cases h
      refine ⟨hmin, hmax, hsame, hwithin, ?_⟩
      by_cases hfull : len = maxMatch
      · exact .inl hfull
      by_cases hend : source.length ≤ src + len + minMatch
      · exact .inr (.inl hend)
      refine .inr (.inr fun hbyte ↦ hstop ⟨?_, by omega, by omega⟩)
      rw [List.getElem?_eq_getElem hm', List.getElem?_eq_getElem hsrc, Option.some.injEq] at hbyte
      exact hbyte.symm

/-- What the table offers is the candidate of the rules, if there is one. -/
theorem candidate_iff {data : UzlibComp} {starts : List ℕ} {src h : ℕ} {found : Option ℕ}
    (hremembers : Remembers data source starts) (hascends : ∀ start ∈ starts, start < src)
    (hhash : hashAt data.hashBits source src = .ok h) (hroom : src + minMatch < source.length)
    (hfound : candidate (data.entering h src) source src (data.hashTable h) = .ok found) (m : ℕ) :
    found = some m ↔ Candidate (matchRules data source) source starts src m := by
  have hbucket := hremembers h
  cases hlast : data.hashTable h with
  | none =>
    rw [hlast] at hfound
    simp only [hlast] at hbucket
    cases hfound
    exact iff_of_false (fun heq ↦ by cases heq) fun hm ↦ hbucket m hm.mem (hm.key.trans hhash)
  | some last =>
    rw [hlast] at hfound
    simp only [hlast] at hbucket
    obtain ⟨hmem, hkey, hgreatest⟩ := hbucket
    have hbefore := hascends last hmem
    -- a candidate of the rules can only be the one in the bucket
    have honly : ∀ {m}, Candidate (matchRules data source) source starts src m → m = last :=
      fun hm ↦ le_antisymm (hgreatest _ hm.mem (hm.key.trans hhash))
        (hm.last last hmem (hkey.trans hhash.symm))
    simp only [candidate] at hfound
    by_cases hnear : last < src ∧ src - last ≤ (data.entering h src).dictSize
    · rw [if_pos hnear] at hfound
      obtain ⟨equal, hequal, hreturn⟩ := bind_ok hfound
      cases hreturn
      have hiff := memEqual_iff minMatch hroom.le (by omega) hequal
      by_cases htrue : equal = true
      · rw [if_pos htrue, Option.some.injEq]
        constructor
        · rintro rfl
          exact ⟨hmem, hkey.trans hhash.symm,
            fun start hstart hstartKey ↦ hgreatest start hstart (hstartKey.trans hhash), hnear.2,
            hiff.mp htrue⟩
        · exact fun hm ↦ (honly hm).symm
      · rw [if_neg htrue]
        refine iff_of_false (fun heq ↦ by cases heq) fun hm ↦ htrue ?_
        obtain rfl := honly hm
        exact hiff.mpr hm.same
    · rw [if_neg hnear] at hfound
      cases hfound
      refine iff_of_false (fun heq ↦ by cases heq) fun hm ↦ hnear ?_
      obtain rfl := honly hm
      exact ⟨hbefore, hm.near⟩

/-- The tail is a greedy parse wherever matches are not looked for any more. -/
theorem searchTail_greedy {data : UzlibComp} (fuel : ℕ) :
    ∀ {src : ℕ} {calls : List Token} (starts : List ℕ), src ≤ source.length →
      source.length ≤ src + minMatch → searchTail source fuel src = .ok calls →
        GreedyFrom (matchRules data source) source starts src calls := by
  induction fuel with
  | zero => intro src calls starts _ _ h; cases h
  | succ fuel ih =>
    intro src calls starts hsrc hend h
    rw [searchTail] at h
    by_cases hmore : src < source.length
    · rw [if_pos hmore] at h
      obtain ⟨byte, hbyte, h⟩ := bind_ok h
      obtain ⟨later, hlater, hreturn⟩ := bind_ok h
      cases hreturn
      rw [readSource_eq hmore, Except.ok.injEq] at hbyte
      refine .literal (hbyte ▸ List.getElem?_eq_getElem hmore) (fun hroom ↦ ?_) (ih _ hmore (by omega) hlater)
      exact absurd hroom (not_lt.mpr hend)
    · rw [if_neg hmore] at h
      cases h
      obtain rfl : src = source.length := by omega
      exact .done starts

/-- The first loop makes the calls of a greedy parse, if what follows them is one. -/
theorem searchLoop_greedy (fuel : ℕ) :
    ∀ {src last : ℕ} {data data' : UzlibComp} {starts : List ℕ} {calls tail : List Token},
      Remembers data source starts → (∀ start ∈ starts, start < src) → src ≤ source.length →
      searchLoop source ((source.length : ℤ) - minMatch) fuel src data = .ok (calls, last, data') →
      (last ≤ source.length → source.length ≤ last + minMatch →
        ∀ starts', GreedyFrom (matchRules data source) source starts' last tail) →
        GreedyFrom (matchRules data source) source starts src (calls ++ tail) := by
  induction fuel with
  | zero => intro src last data data' starts calls tail _ _ _ h _; cases h
  | succ fuel ih =>
    intro src last data data' starts calls tail hremembers hascends hsrc h htail
    rw [searchLoop] at h
    by_cases hmore : (src : ℤ) < (source.length : ℤ) - minMatch
    · rw [if_pos hmore] at h
      have hroom : src + minMatch < source.length := by omega
      have hbehind : ∀ {next : ℕ}, src < next → ∀ start ∈ src :: starts, start < next := by
        intro next hnext start hmem
        rcases List.mem_cons.mp hmem with rfl | hmem
        · exact hnext
        · exact (hascends start hmem).trans hnext
      obtain ⟨value, hhash, h⟩ := bind_ok h
      obtain ⟨found, hfound, h⟩ := bind_ok h
      have hentered := hremembers.entering hascends hhash
      have hgreedy := candidate_iff hremembers hascends hhash hroom hfound
      cases found with
      | none =>
        simp only at h
        obtain ⟨byte, hbyte, h⟩ := bind_ok h
        obtain ⟨⟨later, _, _⟩, hlater, hreturn⟩ := bind_ok h
        cases hreturn
        have hlt : src < source.length := by omega
        rw [readSource_eq hlt, Except.ok.injEq] at hbyte
        have hrest := ih hentered (hbehind (Nat.lt_succ_self _)) hlt hlater htail
        exact .literal (hbyte ▸ List.getElem?_eq_getElem hlt)
          (fun _ earlier hm ↦ by cases (hgreedy earlier).mpr hm) hrest
      | some m =>
        simp only at h
        have hcandidate := (hgreedy m).mp rfl
        obtain ⟨len, hextend, h⟩ := bind_ok h
        obtain ⟨⟨later, _, _⟩, hlater, hreturn⟩ := bind_ok h
        cases hreturn
        have hlongest := @extendMatch_longest source data maxMatch src m minMatch len hroom
          (hascends m hcandidate.mem) le_rfl (by decide) (.inl rfl) hcandidate.same hextend
        have hmin : minMatch ≤ len := hlongest.shortest_le
        have hpositive : 0 < minMatch := by decide
        have hend : src + len ≤ source.length := by
          rcases hlongest.within with hshort | hfits
          · rw [hshort]
            exact hroom.le
          · omega
        have hrest := ih hentered (hbehind (by omega)) hend hlater htail
        exact .copy hroom hcandidate hlongest hrest
    · rw [if_neg hmore] at h
      cases h
      exact htail hsrc (by omega) starts

/-- The calls of the matcher are the greedy parse. -/
theorem uzlibCalls_greedy {data data' : UzlibComp} (hempty : ∀ h, data.hashTable h = none)
    {calls : List Token} (h : uzlibCalls data source = .ok (calls, data')) :
    GreedyFrom (matchRules data source) source [] 0 calls := by
  obtain ⟨⟨first, last, data''⟩, hloop, h⟩ := bind_ok h
  obtain ⟨tail, htail, hreturn⟩ := bind_ok h
  cases hreturn
  refine searchLoop_greedy _ (fun bucket ↦ ?_) (fun _ hmem ↦ absurd hmem List.not_mem_nil)
    (Nat.zero_le _) hloop fun hlast hend starts' ↦ searchTail_greedy _ starts' hlast hend htail
  rw [hempty bucket]
  exact fun _ hmem ↦ absurd hmem List.not_mem_nil

end Source

/-- With a zeroed table the matcher writes the greedy parse of its source, and there is no other. -/
theorem uzlibCompress_greedy {data : UzlibComp} (hempty : ∀ h, data.hashTable h = none)
    (hdict : data.dictSize = 32768) (source : List UInt8) :
    ∃ calls data', GreedyFrom (matchRules data source) source [] 0 calls ∧
      (∀ others, GreedyFrom (matchRules data source) source [] 0 others → others = calls) ∧
      ∀ build, uzlibCompress build data source =
        (calls.foldlM (callToken build) data).map (·.searching data') := by
  obtain ⟨calls, data', hcalls, -, -⟩ := @uzlibCalls_spec source data hdict
  have hgreedy := uzlibCalls_greedy hempty hcalls
  exact ⟨calls, data', hgreedy, fun others hothers ↦ hgreedy.unique hothers,
    fun build ↦ uzlibCompress_eq build hcalls⟩

/-- Twelve times the same letter, behind a zeroed table. -/
theorem uzlibCompress_greedy_repeated :
    ∃ calls data', GreedyFrom (matchRules emptyTable (List.replicate 12 97)) (List.replicate 12 97)
        [] 0 calls ∧
      (∀ others, GreedyFrom (matchRules emptyTable (List.replicate 12 97)) (List.replicate 12 97)
        [] 0 others → others = calls) ∧
      ∀ build, uzlibCompress build emptyTable (List.replicate 12 97) =
        (calls.foldlM (callToken build) emptyTable).map (·.searching data') :=
  uzlibCompress_greedy (fun _ ↦ rfl) rfl _

end ZephyrThrift.Muzic
