import ZephyrThrift.Muzic.ChunkEncoding

/-!
# The size of what a finishing call makes

Each call of the matcher costs a number of bits that can be told from it (`tokenSize`), so the size of
the stream a finishing call makes of its input can be told from the calls (`encodeChunk_size`).
-/

set_option autoImplicit false
set_option relaxedAutoImplicit false

namespace ZephyrThrift.Muzic

open Foundation

/-! ### What the calls cost -/

/-- The extra bits of the record that holds the number. -/
def extraSize (records : List CodeRecord) (number : ℕ) : ℕ :=
  ((records.find? fun record ↦ record.min ≤ number ∧ number ≤ record.max).map
    CodeRecord.extrabits).getD 0

/-- The bits of a call with a length up to 258. -/
def tokenSize : Token → ℕ
  | .literal val => if val.toNat ≤ 143 then 8 else 9
  | .copy offset len =>
    (if len < 115 then 7 else 8) + extraSize testedLencodes len + (5 + extraSize distcodes offset)

/-- The calls that the matcher makes for a chunk, with its table empty. -/
def chunkCalls (ustate : UzlibComp) (input : List UInt8) : List Token :=
  match uzlibCalls { ustate with hashTable := fun _ ↦ none } input with
  | .ok (calls, _) => calls
  | .error _ => []

/-- The bytes that a finishing call makes of its input: two for the header of the stream, the last
block with three bits in front and two times seven behind, filled up, and four for the checksum. -/
def finishSize (ustate : UzlibComp) (input : List UInt8) : ℕ :=
  2 + (3 + ((chunkCalls ustate input).map tokenSize).sum + 14) / 8 + 4

/-- The bits in the buffer and behind it. -/
def UzlibComp.held (out : UzlibComp) : ℕ := 8 * out.outlen + out.noutbits

/-- What writes adds so many bits where it succeeds, and leaves the writer enabled. -/
def Adds (write : UzlibComp → Except Fault UzlibComp) (count : ℕ) : Prop :=
  ∀ out out', out.compDisabled = false → write out = .ok out' →
    out'.compDisabled = false ∧ out'.held = out.held + count

theorem adds_ok : Adds .ok 0 := by
  intro out out' henabled h
  cases h
  exact ⟨henabled, rfl⟩

theorem Adds.bind {first second : UzlibComp → Except Fault UzlibComp} {count count' : ℕ}
    (h : Adds first count) (h' : Adds second count') :
    Adds (fun out ↦ first out >>= second) (count + count') := by
  intro out out' henabled hboth
  obtain ⟨middle, hfirst, hsecond⟩ := bind_ok hboth
  obtain ⟨henabled', hheld⟩ := h out middle henabled hfirst
  obtain ⟨henabled'', hheld'⟩ := h' middle out' henabled' hsecond
  exact ⟨henabled'', by rw [hheld', hheld, Nat.add_assoc]⟩

theorem appendByte_size {out out' : UzlibComp} {byte : UInt8} (h : appendByte out byte = .ok out') :
    out'.outlen = out.outlen + 1 ∧ out'.noutbits = out.noutbits ∧
      out'.compDisabled = out.compDisabled := by
  rw [appendByte] at h
  cases houtbuf : out.outbuf with
  | none =>
    rw [houtbuf] at h
    cases h
  | some ptr =>
    rw [houtbuf] at h
    dsimp only at h
    by_cases hroom : ptr.live = true ∧ ptr.offset = 0 ∧ out.outlen = ptr.block.length ∧
        out.outlen < out.outsize
    · rw [if_pos hroom] at h
      cases h
      exact ⟨rfl, rfl, rfl⟩
    · rw [if_neg hroom] at h
      cases h

theorem growOutbuf_size {out out' : UzlibComp} (h : growOutbuf out = .ok out') :
    out'.outlen = out.outlen ∧ out'.noutbits = out.noutbits ∧
      out'.compDisabled = out.compDisabled := by
  rw [growOutbuf] at h
  by_cases hfull : out.outsize ≤ out.outlen
  · rw [if_pos hfull] at h
    cases hgrown : reallocOut out.outbuf with
    | error fault =>
      rw [hgrown] at h
      cases h
    | ok ptr =>
      rw [hgrown] at h
      cases h
      exact ⟨rfl, rfl, rfl⟩
  · rw [if_neg hfull] at h
    cases h
    exact ⟨rfl, rfl, rfl⟩

/-- Flushing moves bits into the buffer. -/
theorem flushBytes_size (fuel : ℕ) :
    ∀ {out out' : UzlibComp}, flushBytes fuel out = .ok out' →
      out'.held = out.held ∧ out'.noutbits < 8 ∧ out'.compDisabled = out.compDisabled := by
  induction fuel with
  | zero => intro out out' h; cases h
  | succ fuel ih =>
    intro out out' h
    rw [flushBytes] at h
    by_cases hwhole : 8 ≤ out.noutbits
    · rw [if_pos hwhole] at h
      cases hgrow : growOutbuf out with
      | error fault =>
        rw [hgrow] at h
        cases h
      | ok grown =>
        rw [hgrow] at h
        dsimp only at h
        cases happend : appendByte grown (UInt8.ofNat (grown.outbits % 256)) with
        | error fault =>
          rw [happend] at h
          cases h
        | ok appended =>
          rw [happend] at h
          obtain ⟨hlen, hbits, hdisabled⟩ := growOutbuf_size hgrow
          obtain ⟨hlen', hbits', hdisabled'⟩ := appendByte_size happend
          obtain ⟨hheld, hshort, hkept⟩ := ih h
          refine ⟨?_, hshort, hkept.trans (hdisabled'.trans hdisabled)⟩
          simp only [UzlibComp.held] at hheld ⊢
          omega
    · rw [if_neg hwhole] at h
      cases h
      exact ⟨rfl, not_le.mp hwhole, rfl⟩

theorem outbits_size {build : Build} {out out' : UzlibComp} {bits nbits : ℕ}
    (h : outbits build out bits nbits = .ok out') :
    out'.held = out.held + nbits ∧ out'.noutbits < 8 ∧ out'.compDisabled = out.compDisabled := by
  rw [outbits] at h
  cases hassert : build.assert (out.noutbits + nbits ≤ 32) with
  | error fault =>
    rw [hassert] at h
    cases h
  | ok =>
    rw [hassert] at h
    obtain ⟨hheld, hshort, hdisabled⟩ := flushBytes_size _ h
    exact ⟨by rw [hheld, UzlibComp.held, UzlibComp.held, Nat.add_assoc], hshort, hdisabled⟩

theorem adds_outbits (build : Build) (bits nbits : ℕ) : Adds (outbits build · bits nbits) nbits := by
  intro out out' henabled h
  obtain ⟨hheld, -, hdisabled⟩ := outbits_size h
  exact ⟨hdisabled.trans henabled, hheld⟩

theorem adds_extraBits (build : Build) (value extrabits : ℕ) :
    Adds (fun out ↦ if extrabits ≠ 0 then outbits build out value extrabits else .ok out)
      extrabits := by
  by_cases hnone : extrabits = 0
  · simp only [hnone, ne_eq, not_true_eq_false, if_false]
    exact adds_ok
  · simp only [ne_eq, hnone, not_false_eq_true, if_true]
    exact adds_outbits build value extrabits

/-- Of records in order, only one holds a number. -/
theorem extraSize_locates {records : List CodeRecord} {codes : List (ℕ × ℕ)} {number position : ℕ}
    {record : CodeRecord} (hordered : Ordered records)
    (h : Locates records codes number position record) :
    extraSize records number = record.extrabits := by
  obtain ⟨hlt, hrecord⟩ := List.getElem?_eq_some_iff.mp h.at_position
  have hfind : records.find? (fun record ↦ record.min ≤ number ∧ number ≤ record.max) =
      some record := by
    rw [List.find?_eq_some_iff_getElem]
    refine ⟨decide_eq_true ⟨h.min, h.max⟩, position, hlt, hrecord, fun earlier hearlier ↦ ?_⟩
    have hbelow := List.pairwise_iff_getElem.mp hordered earlier position (by omega) hlt hearlier
    rw [hrecord] at hbelow
    have hmin := h.min
    simp only [Bool.not_eq_true', decide_eq_false_iff_not]
    omega
  rw [extraSize, hfind]
  rfl

theorem short_testedLencodes : ∀ position < testedLencodes.length,
    ∀ record ∈ testedLencodes[position]?, position + 257 ≤ 279 ∧ record.max < 115 ∨
      ¬ position + 257 ≤ 279 ∧ 115 ≤ record.min := by decide

theorem adds_emitLength (build : Build) {thislen : ℕ} (hmin : 3 ≤ thislen) (hmax : thislen ≤ 258) :
    Adds (emitLength build · thislen)
      ((if thislen < 115 then 7 else 8) + extraSize testedLencodes thislen) := by
  obtain ⟨position, record, h⟩ := exists_lencode hmin hmax
  obtain ⟨hlt, hrecord⟩ := List.getElem?_eq_some_iff.mp h.at_position
  have hrecord_min := h.min
  have hrecord_max := h.max
  rw [show (emitLength build · thislen) = _ from emitLength_eq build h,
    extraSize_locates ordered_testedLencodes h]
  refine Adds.bind ?_ (adds_extraBits build _ _)
  have hsides := short_testedLencodes position hlt record h.at_position
  rcases hsides with ⟨hshort, hbelow⟩ | ⟨hlong, habove⟩
  · simp only [if_pos hshort, if_pos (show thislen < 115 by omega)]
    exact adds_outbits build _ _
  · simp only [if_neg hlong, if_neg (show ¬ thislen < 115 by omega)]
    exact adds_outbits build _ _

theorem adds_emitDistance (build : Build) {distance : ℕ} (hmin : 1 ≤ distance)
    (hmax : distance ≤ 32768) :
    Adds (emitDistance build · distance) (5 + extraSize distcodes distance) := by
  obtain ⟨position, record, h⟩ := exists_distcode hmin hmax
  rw [show (emitDistance build · distance) = _ from emitDistance_eq build h,
    extraSize_locates ordered_distcodes h]
  exact (adds_outbits build _ _).bind (adds_extraBits build _ _)

theorem adds_callToken (build : Build) {history : List UInt8} {token : Token}
    (h : token.Valid 32768 history) : Adds (callToken build · token) (tokenSize token) := by
  cases token with
  | literal val =>
    intro out out' henabled hcall
    simp only [callToken, zlibLiteral, henabled, Bool.false_eq_true, if_false] at hcall
    rw [tokenSize]
    by_cases hlow : val.toNat ≤ 143
    · rw [if_pos hlow] at hcall ⊢
      exact adds_outbits build _ _ out out' henabled hcall
    · rw [if_neg hlow] at hcall ⊢
      exact adds_outbits build _ _ out out' henabled hcall
  | copy offset len =>
    obtain ⟨hmin, hmax, hpos, -, hwindow⟩ := h
    intro out out' henabled hcall
    -- a length up to 258 goes out in one turn
    have hthis : thisLength len = len := by
      rw [thisLength, if_neg (by omega), if_pos hmax]
    have hturn : callToken build out (.copy offset len) =
        (emitLength build out len >>= (emitDistance build · offset)) >>= .ok := by
      obtain ⟨len, rfl⟩ := Nat.exists_eq_succ_of_ne_zero (show len ≠ 0 by omega)
      simp only [callToken, zlibMatch, henabled, Bool.not_false, Build.assert_true, matchLoop,
        if_pos (Nat.succ_pos len), hthis, Nat.sub_self, lt_irrefl, if_false, bind_assoc]
      rfl
    dsimp only at hcall
    rw [hturn] at hcall
    exact (((adds_emitLength build hmin hmax).bind (adds_emitDistance build hpos hwindow)).bind
      adds_ok) out out' henabled hcall

theorem adds_calls (build : Build) (calls : List Token) :
    ∀ {history : List UInt8}, ValidTokens 32768 history calls →
      Adds (fun out ↦ calls.foldlM (callToken build) out) (calls.map tokenSize).sum := by
  induction calls with
  | nil => exact fun _ ↦ adds_ok
  | cons call calls ih =>
    rintro history ⟨hvalid, hvalids⟩
    simp only [List.foldlM_cons, List.map_cons, List.sum_cons]
    exact (adds_callToken build hvalid).bind (ih hvalids)

/-! ### The whole stream -/

/-- The calls of a chunk depend on nothing but the parameters of the matcher. -/
theorem chunkCalls_eq {ustate data data' : UzlibComp} {input : List UInt8} {calls : List Token}
    (hbits : data.hashBits = ustate.hashBits) (hdict : data.dictSize = ustate.dictSize)
    (htable : data.hashTable = fun _ ↦ none) (h : uzlibCalls data input = .ok (calls, data')) :
    chunkCalls ustate input = calls := by
  have hsearching : ({ ustate with hashTable := fun _ ↦ none } : UzlibComp) =
      ustate.searching data := by
    rw [UzlibComp.searching, htable, hbits, hdict]
  rw [chunkCalls, hsearching, uzlibCalls_searching, h]
  rfl

theorem finishSize_congr {ustate data : UzlibComp} (hbits : data.hashBits = ustate.hashBits)
    (hsame : data.dictSize = ustate.dictSize) (hdict : data.dictSize = 32768) (input : List UInt8) :
    finishSize data input = finishSize ustate input := by
  obtain ⟨calls, data', hcalls, -⟩ :=
    @uzlibCalls_spec input { data with hashTable := fun _ ↦ none } hdict
  have hfirst : chunkCalls data input = calls :=
    @chunkCalls_eq data { data with hashTable := fun _ ↦ none } _ _ _ rfl rfl rfl hcalls
  have hsecond : chunkCalls ustate input = calls :=
    @chunkCalls_eq ustate { data with hashTable := fun _ ↦ none } _ _ _ hbits hsame rfl hcalls
  rw [finishSize, finishSize, hfirst, hsecond]

theorem adds_uzlibCompress (build : Build) {ustate data : UzlibComp} (input : List UInt8)
    (hdict : data.dictSize = 32768) (htable : data.hashTable = fun _ ↦ none)
    (hbits : data.hashBits = ustate.hashBits) (hsame : data.dictSize = ustate.dictSize)
    {out : UzlibComp} (henabled : data.compDisabled = false)
    (h : uzlibCompress build data input = .ok out) :
    out.compDisabled = false ∧
      out.held = data.held + ((chunkCalls ustate input).map tokenSize).sum := by
  obtain ⟨calls, data', hcalls, hvalid, -⟩ := @uzlibCalls_spec input data hdict
  rw [uzlibCompress_eq build hcalls] at h
  obtain ⟨out', hout', rfl⟩ := map_ok h
  rw [chunkCalls_eq hbits hsame htable hcalls]
  exact adds_calls build calls hvalid data out' henabled hout'

theorem out4bytes_size {out out' : UzlibComp} {st nd rd th : UInt8}
    (h : out4bytes out st nd rd th = .ok out') : out'.outlen = out.outlen + 4 := by
  have hbytes : ∀ grown : UzlibComp, (do
      let out ← appendByte grown st
      let out ← appendByte out nd
      let out ← appendByte out rd
      appendByte out th) = .ok out' → out'.outlen = grown.outlen + 4 := by
    intro grown h
    obtain ⟨out₁, hout₁, h⟩ := bind_ok h
    obtain ⟨out₂, hout₂, h⟩ := bind_ok h
    obtain ⟨out₃, hout₃, h⟩ := bind_ok h
    have h₁ := (appendByte_size hout₁).1
    have h₂ := (appendByte_size hout₂).1
    have h₃ := (appendByte_size hout₃).1
    have h₄ := (appendByte_size h).1
    omega
  rw [out4bytes] at h
  dsimp only at h
  by_cases hsmall : out.outsize < out.outlen + 4
  · rw [if_pos hsmall] at h
    obtain ⟨ptr, -, h⟩ := bind_ok h
    rw [pure_bind] at h
    have hlen := hbytes _ h
    exact hlen
  · rw [if_neg hsmall] at h
    exact hbytes _ h

theorem outbits_searching {build : Build} {out out' : UzlibComp} {bits nbits : ℕ}
    (h : outbits build out bits nbits = .ok out') : out' = out'.searching out := by
  have hsame := unsearched_outbits build bits nbits out out
  dsimp only at hsame
  rw [show out.searching out = out from rfl, h] at hsame
  exact Except.ok.inj hsame

/-- A finishing call makes a stream of the size that its calls cost. -/
theorem encodeChunk_size {build : Build} {ustate encoded : UzlibComp} {input : List UInt8}
    {adlerV : ℕ} (hdict : ustate.dictSize = 32768)
    (h : encodeChunk build ustate input .finish adlerV = .ok encoded) :
    encoded.outlen = finishSize ustate input := by
  rw [encodeChunk_eq] at h
  obtain ⟨out₂, h, hclose⟩ := bind_ok h
  obtain ⟨out₁, hopen, hcompress⟩ := bind_ok h
  have hopened : out₁.compDisabled = false ∧ out₁.held = 19 ∧ out₁.hashBits = ustate.hashBits ∧
      out₁.dictSize = ustate.dictSize ∧ out₁.hashTable = fun _ ↦ none := by
    simp only [openChunk, true_or, if_true] at hopen
    obtain ⟨second, hheader, hblock⟩ := bind_ok hopen
    obtain ⟨first, hfirst, hsecond⟩ := bind_ok hheader
    obtain ⟨third, hthird, hfourth⟩ := bind_ok hblock
    have hheld₁ := (outbits_size hfirst).1
    have hheld₂ := (outbits_size hsecond).1
    obtain ⟨hheld₃, -, hdisabled₃⟩ := outbits_size hthird
    obtain ⟨hheld₄, -, hdisabled₄⟩ := outbits_size hfourth
    simp only [UzlibComp.held] at hheld₁ hheld₂ hheld₃ hheld₄ ⊢
    rw [outbits_searching hfirst] at hsecond
    rw [outbits_searching hsecond] at hthird
    rw [outbits_searching hthird] at hfourth
    have hkept := outbits_searching hfourth
    refine ⟨hdisabled₄.trans hdisabled₃, by omega, ?_, ?_, ?_⟩ <;> rw [hkept] <;> rfl
  obtain ⟨henabled, hheld, hbits, hsame, htable⟩ := hopened
  obtain ⟨henabled₂, hheld₂⟩ := adds_uzlibCompress build input (hsame.trans hdict) htable hbits hsame
    henabled hcompress
  simp only [closeChunk, if_true] at hclose
  obtain ⟨out₃, hout₃, hclose⟩ := bind_ok hclose
  obtain ⟨out₄, hbytes, hclose⟩ := bind_ok hclose
  obtain ⟨out₅, hout₅, hbytes⟩ := bind_ok hbytes
  cases hclose
  obtain ⟨hheld₃, -, -⟩ := outbits_size hout₃
  obtain ⟨hheld₅, hshort, -⟩ := outbits_size hout₅
  have hlen := out4bytes_size hbytes
  simp only [UzlibComp.held] at hheld hheld₂ hheld₃ hheld₅
  rw [finishSize]
  simp only
  omega

end ZephyrThrift.Muzic
