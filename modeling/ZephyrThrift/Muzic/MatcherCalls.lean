import ZephyrThrift.Foundation.Tokens
import ZephyrThrift.Muzic.Deflate

/-!
# The calls of the matcher

`uzlib_compress` hands what it finds to `literal` and `copy`; a build with `DUMP_LZTXT` prints these
calls instead of writing code words. `uzlibCalls` is the matcher of such a build, and the matcher that
writes makes the same calls (`uzlibCompress_eq`). Whatever the hash table holds, the calls stand for
the source, stay within it, and end (`uzlibCompress_calls`): a candidate is only taken when its bytes
have been compared, so nothing needs to be known of the hash function.
-/

set_option autoImplicit false
set_option relaxedAutoImplicit false

namespace ZephyrThrift.Muzic

open Foundation

/-! ### The matcher that lists its calls -/

/-- `*bucket = src`. -/
def UzlibComp.entering (data : UzlibComp) (h src : ℕ) : UzlibComp :=
  { data with hashTable := Function.update data.hashTable h (some src) }

/-- The first loop of `uzlib_compress`: the calls it makes, the position where it ends, and the state
with its table. -/
def searchLoop (source : List UInt8) (top : ℤ) :
    ℕ → ℕ → UzlibComp → Except Fault (List Token × ℕ × UzlibComp)
  | 0, _, _ => .error .endlessLoop
  | fuel + 1, src, data =>
    if (src : ℤ) < top then do
      let h ← hashAt data.hashBits source src
      match ← candidate (data.entering h src) source src (data.hashTable h) with
      | some subs => do
        let len ← extendMatch source top maxMatch (src + minMatch) (subs + minMatch) minMatch
        let (calls, last) ← searchLoop source top fuel (src + len) (data.entering h src)
        return (.copy (src - subs) len :: calls, last)
      | none => do
        let byte ← readSource source src
        let (calls, last) ← searchLoop source top fuel (src + 1) (data.entering h src)
        return (.literal byte :: calls, last)
    else .ok ([], src, data)

/-- The second loop of `uzlib_compress`. -/
def searchTail (source : List UInt8) : ℕ → ℕ → Except Fault (List Token)
  | 0, _ => .error .endlessLoop
  | fuel + 1, src =>
    if src < source.length then do
      let byte ← readSource source src
      let calls ← searchTail source fuel (src + 1)
      return .literal byte :: calls
    else .ok []

/-- The calls that `uzlib_compress` makes, and the state with the table it leaves. -/
def uzlibCalls (data : UzlibComp) (source : List UInt8) :
    Except Fault (List Token × UzlibComp) := do
  let (calls, src, data) ←
    searchLoop source ((source.length : ℤ) - minMatch) (source.length + 1) 0 data
  let tail ← searchTail source (source.length + 1) src
  return (calls ++ tail, data)

/-- `literal` and `copy`. -/
def callToken (build : Build) (data : UzlibComp) : Token → Except Fault UzlibComp
  | .literal val => zlibLiteral build data val
  | .copy offset len => zlibMatch build data offset len

/-! ### What holds of every call -/

/-- A property of what writes that holds of `outbits` and of what is put together from it. -/
structure WriteRule (build : Build) (holds : (UzlibComp → Except Fault UzlibComp) → Prop) : Prop where
  ok : holds .ok
  error : ∀ fault, holds fun _ ↦ .error fault
  bind : ∀ first second, holds first → holds second → holds fun out ↦ first out >>= second
  disabled : ∀ first second, holds first → holds second →
    holds fun out ↦ if out.compDisabled = true then first out else second out
  outbits : ∀ bits nbits, holds (outbits build · bits nbits)

section Rule

variable {build : Build} {holds : (UzlibComp → Except Fault UzlibComp) → Prop}

theorem WriteRule.zlibLiteral (h : WriteRule build holds) (c : UInt8) :
    holds (zlibLiteral build · c) := by
  refine h.disabled _ _ (h.outbits _ _) ?_
  split_ifs <;> exact h.outbits _ _

theorem WriteRule.extraBits (h : WriteRule build holds) (value extrabits : ℕ) :
    holds fun out ↦ if extrabits ≠ 0 then Muzic.outbits build out value extrabits else pure out := by
  split_ifs
  · exact h.outbits _ _
  · exact h.ok

theorem WriteRule.emitLength (h : WriteRule build holds) (thislen : ℕ) :
    holds (emitLength build · thislen) := by
  simp only [Muzic.emitLength]
  cases bisectCode build
    (lencodes.map fun record ↦ { record with min := record.min + 3, max := record.max + 3 })
    thislen (lencodes.length + 1) (-1) lencodes.length with
  | error fault => exact h.error fault
  | ok position =>
    simp only [Except.bind, Bind.bind]
    by_cases hshort : position + 257 ≤ 279
    · simp only [if_pos hshort]
      exact h.bind _ _ (h.outbits _ _) (h.extraBits _ _)
    · simp only [if_neg hshort]
      exact h.bind _ _ (h.outbits _ _) (h.extraBits _ _)

theorem WriteRule.emitDistance (h : WriteRule build holds) (distance : ℕ) :
    holds (emitDistance build · distance) := by
  simp only [Muzic.emitDistance]
  cases bisectCode build distcodes distance (distcodes.length + 1) (-1) distcodes.length with
  | error fault => exact h.error fault
  | ok code =>
    simp only [Except.bind, Bind.bind]
    exact h.bind _ _ (h.outbits _ _) (h.extraBits _ _)

theorem WriteRule.matchLoop (h : WriteRule build holds) (distance : ℕ) (fuel : ℕ) :
    ∀ len, holds (matchLoop build distance fuel len) := by
  induction fuel with
  | zero => exact fun _ ↦ h.error _
  | succ fuel ih =>
    intro len
    simp only [Muzic.matchLoop]
    split_ifs
    · exact h.bind _ _ (h.emitLength _) (h.bind _ _ (h.emitDistance distance) (ih _))
    · exact h.ok

theorem WriteRule.callToken (h : WriteRule build holds) (token : Token) :
    holds (callToken build · token) := by
  cases token with
  | literal val => exact h.zlibLiteral val
  | copy offset len =>
    have hassert : (Muzic.callToken build · (.copy offset len)) = fun out ↦
        if out.compDisabled = true then
          if build.ndebug = true then Muzic.matchLoop build offset (len + 1) len out
          else .error .assertion
        else Muzic.matchLoop build offset (len + 1) len out := by
      funext out
      simp only [Muzic.callToken, zlibMatch, Build.assert]
      cases out.compDisabled <;> cases build.ndebug <;> rfl
    rw [hassert]
    refine h.disabled _ _ ?_ (h.matchLoop _ _ _)
    split_ifs
    · exact h.matchLoop _ _ _
    · exact h.error _

end Rule

/-! ### The writer has no part in the search -/

/-- The fields of the matcher from one state, the fields of the writer from another one. -/
def UzlibComp.searching (out data : UzlibComp) : UzlibComp :=
  { out with hashTable := data.hashTable, hashBits := data.hashBits, dictSize := data.dictSize }

/-- What writes leaves the fields of the matcher alone and does not look at them. -/
def Unsearched (write : UzlibComp → Except Fault UzlibComp) : Prop :=
  ∀ out data, write (out.searching data) = (write out).map (·.searching data)

theorem Unsearched.bind {first second : UzlibComp → Except Fault UzlibComp} (h : Unsearched first)
    (h' : Unsearched second) : Unsearched fun out ↦ first out >>= second := by
  intro out data
  simp only [h out data]
  cases first out with
  | error fault => rfl
  | ok out' => exact h' out' data

theorem unsearched_appendByte (byte : UInt8) : Unsearched (appendByte · byte) := by
  intro out data
  obtain ⟨outbuf, outlen, outsize, _⟩ := out
  cases outbuf with
  | none => rfl
  | some ptr =>
    by_cases hroom : ptr.live = true ∧ ptr.offset = 0 ∧ outlen = ptr.block.length ∧ outlen < outsize
    · simp only [appendByte]
      rw [if_pos hroom]
      exact if_pos hroom
    · simp only [appendByte]
      rw [if_neg hroom]
      exact if_neg hroom

theorem unsearched_growOutbuf : Unsearched growOutbuf := by
  intro out data
  rw [growOutbuf, growOutbuf]
  by_cases hfull : out.outsize ≤ out.outlen
  · rw [if_pos hfull]
    refine (if_pos hfull).trans ?_
    rw [show (out.searching data).outbuf = out.outbuf from rfl]
    cases reallocOut out.outbuf <;> rfl
  · rw [if_neg hfull]
    exact if_neg hfull

theorem unsearched_flushBytes (fuel : ℕ) : Unsearched (flushBytes fuel) := by
  induction fuel with
  | zero => exact fun _ _ ↦ rfl
  | succ fuel ih =>
    intro out data
    rw [flushBytes, flushBytes]
    by_cases hwhole : 8 ≤ out.noutbits
    · rw [if_pos hwhole]
      refine (if_pos hwhole).trans ?_
      rw [unsearched_growOutbuf out data]
      cases growOutbuf out with
      | error fault => rfl
      | ok grown =>
        dsimp only [Except.map]
        have happend := unsearched_appendByte (UInt8.ofNat (grown.outbits % 256)) grown data
        dsimp only at happend
        rw [show (grown.searching data).outbits = grown.outbits from rfl, happend]
        cases appendByte grown (UInt8.ofNat (grown.outbits % 256)) with
        | error fault => rfl
        | ok appended =>
          exact ih { appended with
            outbits := appended.outbits >>> 8, noutbits := appended.noutbits - 8 } data
    · rw [if_neg hwhole]
      exact if_neg hwhole

theorem unsearched_outbits (build : Build) (bits nbits : ℕ) :
    Unsearched (outbits build · bits nbits) := by
  intro out data
  dsimp only
  rw [outbits, outbits, show (out.searching data).noutbits = out.noutbits from rfl]
  cases build.assert (out.noutbits + nbits ≤ 32) with
  | error fault => rfl
  | ok =>
    exact unsearched_flushBytes _ { out with
      outbits := out.outbits ||| (bits <<< out.noutbits), noutbits := out.noutbits + nbits } data

theorem unsearched_callToken (build : Build) (token : Token) :
    Unsearched (callToken build · token) := by
  refine WriteRule.callToken ⟨fun _ _ ↦ rfl, fun _ _ _ ↦ rfl, fun _ _ h h' ↦ h.bind h', ?_,
    unsearched_outbits build⟩ token
  intro first second h h' out data
  dsimp only
  by_cases hdisabled : out.compDisabled = true
  · rw [if_pos hdisabled]
    exact (if_pos hdisabled).trans (h out data)
  · rw [if_neg hdisabled]
    exact (if_neg hdisabled).trans (h' out data)

/-! ### The matcher that writes makes these calls -/

section Making

variable (build : Build) {source : List UInt8}

/-- One turn of the first loop, when the fields of the matcher come from `data`. -/
theorem compressLoop_searching (top : ℤ) (fuel src : ℕ) (out data : UzlibComp) :
    compressLoop build source top (fuel + 1) src (out.searching data) =
      if (src : ℤ) < top then
        hashAt data.hashBits source src >>= fun h ↦
          candidate (data.entering h src) source src (data.hashTable h) >>= fun found ↦
            match found with
            | some m =>
              extendMatch source top maxMatch (src + minMatch) (m + minMatch) minMatch >>= fun len ↦
                callToken build (out.searching (data.entering h src)) (.copy (src - m) len) >>=
                  compressLoop build source top fuel (src + len)
            | none =>
              readSource source src >>= fun byte ↦
                callToken build (out.searching (data.entering h src)) (.literal byte) >>=
                  compressLoop build source top fuel (src + 1)
      else .ok (src, out.searching data) := rfl

/-- A call, and then the rest of the loop. -/
theorem callToken_bind {α : Type} {rest : UzlibComp → Except Fault α}
    {later : UzlibComp → Except Fault UzlibComp} {data : UzlibComp} {pack : UzlibComp → α}
    (h : ∀ out, rest (out.searching data) = (later out).map pack) (out : UzlibComp) (token : Token) :
    callToken build (out.searching data) token >>= rest =
      (callToken build out token >>= later).map pack := by
  rw [show callToken build (out.searching data) token =
    (callToken build out token).map (·.searching data) from unsearched_callToken build token out data]
  cases callToken build out token with
  | error fault => rfl
  | ok out' => exact h out'

theorem compressLoop_eq {top : ℤ} (fuel : ℕ) :
    ∀ {src : ℕ} {data : UzlibComp} {calls : List Token} {last : ℕ} {data' : UzlibComp},
      searchLoop source top fuel src data = .ok (calls, last, data') → ∀ out,
        compressLoop build source top fuel src (out.searching data) =
          (calls.foldlM (callToken build) out).map fun out' ↦ (last, out'.searching data') := by
  induction fuel with
  | zero => intro src data calls last data' h; cases h
  | succ fuel ih =>
    intro src data calls last data' h out
    rw [searchLoop] at h
    rw [compressLoop_searching]
    by_cases hmore : (src : ℤ) < top
    · rw [if_pos hmore] at h ⊢
      obtain ⟨value, hvalue, h⟩ := bind_ok h
      obtain ⟨found, hfound, h⟩ := bind_ok h
      simp only [hvalue, hfound, bind, Except.bind]
      cases found with
      | some m =>
        obtain ⟨len, hlen, h⟩ := bind_ok h
        obtain ⟨⟨later, last', data₂⟩, hlater, h⟩ := bind_ok h
        cases h
        simp only [hlen, List.foldlM_cons]
        exact callToken_bind build (ih hlater) out _
      | none =>
        obtain ⟨byte, hbyte, h⟩ := bind_ok h
        obtain ⟨⟨later, last', data₂⟩, hlater, h⟩ := bind_ok h
        cases h
        simp only [hbyte, List.foldlM_cons]
        exact callToken_bind build (ih hlater) out _
    · rw [if_neg hmore] at h ⊢
      cases h
      rfl

theorem tailLoop_eq (fuel : ℕ) :
    ∀ {src : ℕ} {calls : List Token}, searchTail source fuel src = .ok calls → ∀ out data,
      tailLoop build source fuel src (out.searching data) =
        (calls.foldlM (callToken build) out).map (·.searching data) := by
  induction fuel with
  | zero => intro src calls h; cases h
  | succ fuel ih =>
    intro src calls h out data
    rw [searchTail] at h
    rw [tailLoop]
    by_cases hmore : src < source.length
    · rw [if_pos hmore] at h ⊢
      obtain ⟨byte, hbyte, h⟩ := bind_ok h
      obtain ⟨later, hlater, h⟩ := bind_ok h
      cases h
      simp only [hbyte, bind, Except.bind, List.foldlM_cons]
      exact callToken_bind build (fun out ↦ ih hlater out data) out (.literal byte)
    · rw [if_neg hmore] at h ⊢
      cases h
      rfl

/-- Compressing is making the calls, one after the other. -/
theorem uzlibCompress_eq {data data' : UzlibComp} {calls : List Token}
    (h : uzlibCalls data source = .ok (calls, data')) :
    uzlibCompress build data source =
      (calls.foldlM (callToken build) data).map (·.searching data') := by
  obtain ⟨⟨first, src, data₁⟩, hfirst, h⟩ := bind_ok h
  obtain ⟨tail, htail, h⟩ := bind_ok h
  cases h
  have hcompress := compressLoop_eq build _ hfirst data
  rw [show data.searching data = data from rfl] at hcompress
  rw [uzlibCompress, hcompress, List.foldlM_append]
  cases first.foldlM (callToken build) data with
  | error fault => rfl
  | ok out => exact tailLoop_eq build _ htail out data'

/-- The search does not look at the fields of the writer. -/
theorem searchLoop_searching {top : ℤ} (fuel : ℕ) :
    ∀ (src : ℕ) (out data : UzlibComp),
      searchLoop source top fuel src (out.searching data) =
        (searchLoop source top fuel src data).map fun found ↦
          (found.1, found.2.1, out.searching found.2.2) := by
  induction fuel with
  | zero => exact fun _ _ _ ↦ rfl
  | succ fuel ih =>
    intro src out data
    rw [searchLoop, searchLoop]
    by_cases hmore : (src : ℤ) < top
    · rw [if_pos hmore, if_pos hmore, show (out.searching data).hashBits = data.hashBits from rfl]
      cases hashAt data.hashBits source src with
      | error fault => rfl
      | ok value =>
        simp only [bind, Except.bind]
        rw [show candidate ((out.searching data).entering value src) source src
            ((out.searching data).hashTable value) =
          candidate (data.entering value src) source src (data.hashTable value) from rfl]
        have hnext : ∀ src', searchLoop source top fuel src' ((out.searching data).entering value src) =
            (searchLoop source top fuel src' (data.entering value src)).map fun found ↦
              (found.1, found.2.1, out.searching found.2.2) :=
          fun src' ↦ ih src' out (data.entering value src)
        simp only [hnext]
        cases candidate (data.entering value src) source src (data.hashTable value) with
        | error fault => rfl
        | ok found =>
          cases found with
          | none =>
            dsimp only
            cases readSource source src with
            | error fault => rfl
            | ok byte => cases searchLoop source top fuel (src + 1) (data.entering value src) <;> rfl
          | some m =>
            dsimp only
            cases extendMatch source top maxMatch (src + minMatch) (m + minMatch) minMatch with
            | error fault => rfl
            | ok len =>
              dsimp only
              cases searchLoop source top fuel (src + len) (data.entering value src) <;> rfl
    · rw [if_neg hmore, if_neg hmore]
      rfl

end Making

/-! ### What the calls stand for -/

section Source

variable {source : List UInt8}

theorem readSource_eq {index : ℕ} (h : index < source.length) :
    readSource source index = .ok source[index] := by
  rw [readSource, List.getElem?_eq_getElem h]

theorem hashAt_ok (hashBits : ℕ) {p : ℕ} (h : p + 2 < source.length) :
    ∃ value, hashAt hashBits source p = .ok value := by
  simp only [hashAt, readSource_eq (show p < source.length by omega),
    readSource_eq (show p + 1 < source.length by omega), readSource_eq h, bind, Except.bind]
  exact ⟨_, rfl⟩

/-- The bytes at two places of the source agree. -/
def Agree (source : List UInt8) (first second count : ℕ) : Prop :=
  ∀ k < count, source[second + k]? = source[first + k]?

theorem Agree.succ {first second count : ℕ} (h : Agree source first second count)
    (hlast : source[second + count]? = source[first + count]?) :
    Agree source first second (count + 1) := by
  intro k hk
  rcases Nat.lt_succ_iff_lt_or_eq.mp hk with hlt | rfl
  · exact h k hlt
  · exact hlast

theorem memEqual_spec (count : ℕ) :
    ∀ {first second : ℕ}, first + count ≤ source.length → second + count ≤ source.length →
      ∃ equal, memEqual source first second count = .ok equal ∧
        (equal = true → Agree source first second count) := by
  induction count with
  | zero => intro first second _ _; exact ⟨true, rfl, fun _ k hk ↦ absurd hk (Nat.not_lt_zero k)⟩
  | succ count ih =>
    intro first second hfirst hsecond
    simp only [memEqual, readSource_eq (show first < source.length by omega),
      readSource_eq (show second < source.length by omega), bind, Except.bind]
    by_cases hbyte : source[first] = source[second]
    · obtain ⟨equal, hrest, hagree⟩ := @ih (first + 1) (second + 1) (by omega) (by omega)
      refine ⟨equal, by rw [if_pos hbyte, hrest], fun hequal k hk ↦ ?_⟩
      cases k with
      | zero =>
        rw [Nat.add_zero, Nat.add_zero, List.getElem?_eq_getElem (show second < source.length by omega),
          List.getElem?_eq_getElem (show first < source.length by omega), hbyte]
      | succ k =>
        have := hagree hequal k (by omega)
        rwa [show second + (k + 1) = second + 1 + k by omega,
          show first + (k + 1) = first + 1 + k by omega]
    · exact ⟨false, by rw [if_neg hbyte]; rfl, fun h ↦ by cases h⟩

theorem extendMatch_spec {top : ℤ} (htop : top < source.length) (fuel : ℕ) :
    ∀ {src m len : ℕ}, src + len < source.length → m < src → len ≤ maxMatch →
      maxMatch - len < fuel → Agree source src m len →
        ∃ len', extendMatch source top fuel (src + len) (m + len) len = .ok len' ∧ len ≤ len' ∧
          len' ≤ maxMatch ∧ src + len' ≤ source.length ∧ Agree source src m len' := by
  induction fuel with
  | zero => intro src m len _ _ _ hfuel _; exact absurd hfuel (Nat.not_lt_zero _)
  | succ fuel ih =>
    intro src m len hsrc hm hlen hfuel hagree
    simp only [extendMatch, readSource_eq hsrc,
      readSource_eq (show m + len < source.length by omega), bind, Except.bind]
    by_cases hmore : source[src + len] = source[m + len] ∧ len < maxMatch ∧
        ((src + len : ℕ) : ℤ) < top
    · rw [if_pos hmore]
      obtain ⟨hbyte, hshort, hbefore⟩ := hmore
      have hlast : source[m + len]? = source[src + len]? := by
        rw [List.getElem?_eq_getElem (show m + len < source.length by omega),
          List.getElem?_eq_getElem hsrc, hbyte]
      obtain ⟨len', hextend, hle, hrest⟩ := @ih src m (len + 1) (by omega) hm hshort (by omega) (hagree.succ hlast)
      exact ⟨len', hextend, by omega, hrest⟩
    · rw [if_neg hmore]
      exact ⟨len, rfl, le_rfl, hlen, hsrc.le, hagree⟩

/-- A candidate lies before the position, within the window, and starts with the same bytes. -/
theorem candidate_spec (data : UzlibComp) {src : ℕ} (hsrc : src + minMatch ≤ source.length)
    (subs : Option ℕ) :
    ∃ found, candidate data source src subs = .ok found ∧
      ∀ m, found = some m → m < src ∧ src - m ≤ data.dictSize ∧ Agree source src m minMatch := by
  cases subs with
  | none => exact ⟨none, rfl, fun m h ↦ by cases h⟩
  | some subs =>
    simp only [candidate]
    by_cases hnear : subs < src ∧ src - subs ≤ data.dictSize
    · obtain ⟨equal, hequal, hagree⟩ := @memEqual_spec source minMatch _ _ hsrc
        (show subs + minMatch ≤ source.length by omega)
      rw [if_pos hnear, hequal]
      refine ⟨if equal = true then some subs else none, rfl, fun m hm ↦ ?_⟩
      by_cases htrue : equal = true
      · rw [if_pos htrue] at hm
        cases hm
        exact ⟨hnear.1, hnear.2, hagree htrue⟩
      · rw [if_neg htrue] at hm
        cases hm
    · exact ⟨none, if_neg hnear, fun m h ↦ by cases h⟩

end Source

/-- From one position of the source to another, with the calls that cover what lies between. -/
structure Covers (source : List UInt8) (src src' : ℕ) (calls : List Token) : Prop where
  ordered : src ≤ src'
  within : src' ≤ source.length
  valid : ValidTokens 32768 (source.take src) calls
  expands : source.take src ++ expand (source.take src) calls = source.take src'

section Covering

variable {source : List UInt8} {src src' : ℕ}

theorem Covers.refl (h : src ≤ source.length) : Covers source src src [] :=
  ⟨le_rfl, h, trivial, List.append_nil _⟩

theorem Covers.trans {mid : ℕ} {calls later : List Token} (h : Covers source src mid calls)
    (h' : Covers source mid src' later) : Covers source src src' (calls ++ later) := by
  refine ⟨h.ordered.trans h'.ordered, h'.within, h.valid.append (by rw [h.expands]; exact h'.valid), ?_⟩
  rw [expand_append, h.expands, ← List.append_assoc, h.expands, h'.expands]

/-- A literal covers one byte. -/
theorem covers_literal (h : src < source.length) :
    Covers source src (src + 1) [.literal source[src]] := by
  refine ⟨Nat.le_succ src, h, ⟨trivial, trivial⟩, ?_⟩
  rw [List.take_add_one, List.getElem?_eq_getElem h]
  rfl

/-- A match covers the bytes that have been compared. -/
theorem covers_copy {m len : ℕ} (hm : m < src) (hwindow : src - m ≤ 32768) (hmin : 3 ≤ len)
    (hmax : len ≤ 258) (hsrc : src + len ≤ source.length) (hagree : Agree source src m len) :
    Covers source src (src + len) [.copy (src - m) len] := by
  have hlength : (source.take src).length = src := by rw [List.length_take]; omega
  refine ⟨Nat.le_add_right src len, hsrc,
    ⟨⟨hmin, hmax, by omega, by omega, hwindow⟩, trivial⟩, ?_⟩
  rw [expand, expand, List.append_nil]
  refine overlap_take (by omega) len (Nat.sub_le _ _) hsrc fun k hk ↦ ?_
  rw [show src - (src - m) + k = m + k by omega]
  exact hagree k hk

theorem searchLoop_spec (fuel : ℕ) :
    ∀ {src : ℕ} {data : UzlibComp}, data.dictSize = 32768 → src ≤ source.length →
      source.length - src < fuel →
        ∃ calls last data', Covers source src last calls ∧
          searchLoop source ((source.length : ℤ) - minMatch) fuel src data =
            .ok (calls, last, data') := by
  induction fuel with
  | zero => intro src data _ _ hfuel; exact absurd hfuel (Nat.not_lt_zero _)
  | succ fuel ih =>
    intro src data hdict hsrc hfuel
    rw [searchLoop]
    by_cases hmore : (src : ℤ) < (source.length : ℤ) - minMatch
    · have hroom : src + minMatch < source.length := by omega
      simp only [minMatch] at hroom
      obtain ⟨value, hhash⟩ := hashAt_ok data.hashBits (show src + 2 < source.length by omega)
      obtain ⟨found, hfound, hspec⟩ := candidate_spec (data.entering value src)
        (show src + minMatch ≤ source.length by simp only [minMatch]; omega) (data.hashTable value)
      rw [if_pos hmore]
      simp only [hhash, hfound, bind, Except.bind]
      cases found with
      | none =>
        obtain ⟨calls, last, data', hcovers, hloop⟩ := @ih (src + 1) (data.entering value src) hdict
          (by omega) (by omega)
        refine ⟨.literal source[src] :: calls, last, data',
          (covers_literal (by omega)).trans hcovers, ?_⟩
        simp only [readSource_eq (show src < source.length by omega), hloop]
        rfl
      | some m =>
        obtain ⟨hm, hnear, hagree⟩ := hspec m rfl
        obtain ⟨len, hextend, hmin, hmax, hlen, hagree'⟩ := extendMatch_spec
          (show (source.length : ℤ) - minMatch < source.length by simp only [minMatch]; omega)
          maxMatch (show src + minMatch < source.length by simp only [minMatch]; omega) hm
          (show minMatch ≤ maxMatch by decide) (show maxMatch - minMatch < maxMatch by decide) hagree
        obtain ⟨calls, last, data', hcovers, hloop⟩ := @ih (src + len) (data.entering value src) hdict
          hlen (by simp only [minMatch] at hmin; omega)
        refine ⟨.copy (src - m) len :: calls, last, data',
          (covers_copy hm (hnear.trans hdict.le) hmin hmax hlen hagree').trans hcovers, ?_⟩
        simp only [hextend, hloop]
        rfl
    · rw [if_neg hmore]
      exact ⟨[], src, data, Covers.refl hsrc, rfl⟩

theorem searchTail_spec (fuel : ℕ) :
    ∀ {src : ℕ}, src ≤ source.length → source.length - src < fuel →
      ∃ calls, Covers source src source.length calls ∧ searchTail source fuel src = .ok calls := by
  induction fuel with
  | zero => intro src _ hfuel; exact absurd hfuel (Nat.not_lt_zero _)
  | succ fuel ih =>
    intro src hsrc hfuel
    rw [searchTail]
    by_cases hmore : src < source.length
    · obtain ⟨calls, hcovers, htail⟩ := @ih (src + 1) hmore (by omega)
      refine ⟨.literal source[src] :: calls, (covers_literal hmore).trans hcovers, ?_⟩
      rw [if_pos hmore]
      simp only [readSource_eq hmore, htail, bind, Except.bind]
      rfl
    · obtain rfl : src = source.length := by omega
      rw [if_neg hmore]
      exact ⟨[], Covers.refl le_rfl, rfl⟩

/-- The search changes nothing but the table. -/
theorem searchLoop_kept {top : ℤ} (fuel : ℕ) :
    ∀ {src : ℕ} {data : UzlibComp} {calls : List Token} {last : ℕ} {data' : UzlibComp},
      searchLoop source top fuel src data = .ok (calls, last, data') →
        data'.hashBits = data.hashBits ∧ data'.dictSize = data.dictSize := by
  induction fuel with
  | zero => intro src data calls last data' h; cases h
  | succ fuel ih =>
    intro src data calls last data' h
    rw [searchLoop] at h
    by_cases hmore : (src : ℤ) < top
    · rw [if_pos hmore] at h
      obtain ⟨value, -, h⟩ := bind_ok h
      obtain ⟨_ | m, -, h⟩ := bind_ok h
      all_goals
        obtain ⟨_, -, h⟩ := bind_ok h
        obtain ⟨⟨_, _, _⟩, hlater, h⟩ := bind_ok h
        cases h
        have hkept := ih hlater
        exact hkept
    · rw [if_neg hmore] at h
      cases h
      exact ⟨rfl, rfl⟩

theorem uzlibCalls_kept {data data' : UzlibComp} {calls : List Token}
    (h : uzlibCalls data source = .ok (calls, data')) :
    data'.hashBits = data.hashBits ∧ data'.dictSize = data.dictSize := by
  obtain ⟨_, hloop, h⟩ := bind_ok h
  obtain ⟨_, -, h⟩ := bind_ok h
  cases h
  exact searchLoop_kept _ hloop

/-- The calls of the matcher stand for its source. -/
theorem uzlibCalls_spec {data : UzlibComp} (hdict : data.dictSize = 32768) :
    ∃ calls data', uzlibCalls data source = .ok (calls, data') ∧ ValidTokens 32768 [] calls ∧
      expand [] calls = source := by
  obtain ⟨first, last, data', hfirst, hloop⟩ :=
    @searchLoop_spec source (source.length + 1) _ _ hdict (Nat.zero_le _) (by omega)
  obtain ⟨tail, htail, hsearch⟩ :=
    @searchTail_spec source (source.length + 1) last hfirst.within (by omega)
  have hcovers := hfirst.trans htail
  refine ⟨first ++ tail, data', ?_, hcovers.valid, ?_⟩
  · simp only [uzlibCalls, hloop, hsearch, bind, Except.bind]
    rfl
  · have hexpands := hcovers.expands
    rwa [List.take_zero, List.nil_append, List.take_length] at hexpands

theorem uzlibCalls_searching (out data : UzlibComp) :
    uzlibCalls (out.searching data) source =
      (uzlibCalls data source).map fun found ↦ (found.1, out.searching found.2) := by
  rw [uzlibCalls, uzlibCalls, searchLoop_searching]
  cases searchLoop source ((source.length : ℤ) - minMatch) (source.length + 1) 0 data with
  | error fault => rfl
  | ok found =>
    simp only [Except.map, bind, Except.bind]
    cases searchTail source (source.length + 1) found.2.1 <;> rfl

end Covering

/-- The matcher makes calls that stand for its source, however the writer takes them; it reads nothing
outside of the source, and its loops end. -/
theorem uzlibCompress_calls {data : UzlibComp} (hdict : data.dictSize = 32768) (source : List UInt8) :
    ∃ calls data', uzlibCalls data source = .ok (calls, data') ∧
      (∀ build, uzlibCompress build data source =
        (calls.foldlM (callToken build) data).map (·.searching data')) ∧
      ValidTokens 32768 [] calls ∧ expand [] calls = source := by
  obtain ⟨calls, data', hcalls, hvalid, hexpand⟩ := @uzlibCalls_spec source data hdict
  exact ⟨calls, data', hcalls, fun build ↦ uzlibCompress_eq build hcalls, hvalid, hexpand⟩

/-- The state in front of a source, with an empty table. -/
def emptyTable : UzlibComp := ⟨none, 0, 0, 0, 0, false, fun _ ↦ none, 12, 32768⟩

/-- Twelve times the same letter. -/
theorem uzlibCompress_calls_repeated :
    ∃ calls data', uzlibCalls emptyTable (List.replicate 12 97) = .ok (calls, data') ∧
      (∀ build, uzlibCompress build emptyTable (List.replicate 12 97) =
        (calls.foldlM (callToken build) emptyTable).map (·.searching data')) ∧
      ValidTokens 32768 [] calls ∧ expand [] calls = List.replicate 12 97 :=
  uzlibCompress_calls rfl _

example : (uzlibCalls emptyTable (List.replicate 12 97)).map Prod.fst =
    .ok [.literal 97, .copy 1 8, .literal 97, .literal 97, .literal 97] := by decide +kernel

end ZephyrThrift.Muzic
