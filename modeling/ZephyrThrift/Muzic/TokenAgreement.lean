import ZephyrThrift.Muzic.Matching
import ZephyrThrift.Muzic.BlockDecoding

/-!
# The writer and the reader agree on every token

The writer splits a match of any length into matches of 3 to 258 bytes and appends a code word for
each, at any alignment. With the decoders of the fixed codes, the steps of `inflate` up to
`OUTPUT_SEQUENCE` read these tokens back and consume the bits that have been written (`tokens_agree`).
What the steps behind them store is not looked at.
-/

set_option autoImplicit false
set_option relaxedAutoImplicit false

namespace ZephyrThrift.Muzic

open Foundation

/-! ### The buffer of the writer -/

/-- What writes does not store behind the end of the buffer. -/
def KeepsRoom (write : UzlibComp → Except Fault UzlibComp) : Prop :=
  ∀ out out', out.outlen ≤ out.outsize → write out = .ok out' → out'.outlen ≤ out'.outsize

theorem appendByte_room {out out' : UzlibComp} {byte : UInt8} (h : appendByte out byte = .ok out') :
    out'.outlen ≤ out'.outsize := by
  rw [appendByte] at h
  cases houtbuf : out.outbuf with
  | none =>
    rw [houtbuf] at h
    cases h
  | some ptr =>
    rw [houtbuf] at h
    dsimp only at h
    by_cases hroom : ptr.live = true ∧ ptr.offset = 0 ∧ out.outlen = ptr.block.length ∧
        out.outlen < out.outsize
    · rw [if_pos hroom] at h
      cases h
      exact hroom.2.2.2
    · rw [if_neg hroom] at h
      cases h

theorem keepsRoom_flushBytes (fuel : ℕ) : KeepsRoom (flushBytes fuel) := by
  induction fuel with
  | zero => intro out out' _ h; cases h
  | succ fuel ih =>
    intro out out' hroom h
    rw [flushBytes] at h
    by_cases hwhole : 8 ≤ out.noutbits
    · rw [if_pos hwhole] at h
      cases hgrow : growOutbuf out with
      | error fault =>
        rw [hgrow] at h
        cases h
      | ok grown =>
        rw [hgrow] at h
        dsimp only at h
        cases happend : appendByte grown (UInt8.ofNat (grown.outbits % 256)) with
        | error fault =>
          rw [happend] at h
          cases h
        | ok appended =>
          rw [happend] at h
          have hroom' := appendByte_room happend
          exact ih _ _ (by exact hroom') h
    · rw [if_neg hwhole] at h
      cases h
      exact hroom

theorem keepsRoom_outbits (build : Build) (bits nbits : ℕ) :
    KeepsRoom (outbits build · bits nbits) := by
  intro out out' hroom h
  dsimp only at h
  rw [outbits] at h
  cases hassert : build.assert (out.noutbits + nbits ≤ 32) with
  | error fault =>
    rw [hassert] at h
    cases h
  | ok =>
    rw [hassert] at h
    exact keepsRoom_flushBytes _ _ _ (by exact hroom) h

theorem KeepsRoom.bind {first second : UzlibComp → Except Fault UzlibComp} (h : KeepsRoom first)
    (h' : KeepsRoom second) : KeepsRoom fun out ↦ first out >>= second := by
  intro out out' hroom hboth
  obtain ⟨middle, hfirst, hsecond⟩ := bind_ok hboth
  exact h' middle out' (h out middle hroom hfirst) hsecond

theorem keepsRoom_callToken (build : Build) (token : Token) :
    KeepsRoom (callToken build · token) := by
  refine WriteRule.callToken ⟨?_, fun _ _ _ _ h ↦ (by cases h), fun _ _ h h' ↦ h.bind h', ?_,
    keepsRoom_outbits build⟩ token
  · intro out out' hroom h
    cases h
    exact hroom
  · intro first second h h' out out' hroom hwrite
    dsimp only at hwrite
    split_ifs at hwrite
    · exact h out out' hroom hwrite
    · exact h' out out' hroom hwrite

theorem keepsRoom_calls (build : Build) (calls : List Token) :
    KeepsRoom fun out ↦ calls.foldlM (callToken build) out := by
  induction calls with
  | nil =>
    intro out out' hroom h
    cases h
    exact hroom
  | cons call calls ih =>
    simp only [List.foldlM_cons]
    exact (keepsRoom_callToken build call).bind ih

/-! ### What the steps read -/

/-- A token has been read: a literal waits for room, or a match to be copied. -/
def Stands (p : InfPass) : Token → Prop
  | .literal byte => p.state.step = .readLiteralOrLength2 ∧ p.state.literal = byte.toNat
  | .copy distance length =>
    p.state.step = .outputSequence ∧ p.state.sequenceDist = distance ∧ p.state.sequenceLen = length

/-- The decoder goes on behind a token: the window and its room have changed, and nothing else that
the steps look at. -/
structure Resumes (p q : InfPass) : Prop where
  input : q.input = p.input
  state : ∃ outputBuf sequenceLen, q.state = { p.state with
    outputBuf := outputBuf, sequenceLen := sequenceLen, step := .readLiteralOrLength }
  ring : ∃ history, RingHolds q.state.outputBuf history

/-- The steps read these tokens one after the other, whatever is stored for them, and then face the
given bits. -/
def ReadsTokens (build : Build) (rest : List Bool) : List Token → InfPass → Prop
  | [], p => (bitstreamOf p).Faces 7 rest
  | token :: tokens, p =>
    ∃ q, Reaches (inflateStep build) p [] q ∧ Stands q token ∧
      ∀ p', Resumes q p' → ReadsTokens build rest tokens p'

/-- The step that stores a literal resumes behind it. -/
theorem resumes_literal {build : Build} {p : InfPass} {byte : UInt8} {history : List UInt8}
    {e : InfEffect} (hring : RingHolds p.state.outputBuf history) (h : Stands p (.literal byte))
    (he : inflateStep build p = .ok e) (hgo : e.signal = .proceed) :
    Resumes p e.pass ∧ e.stored = [byte] := by
  obtain ⟨hstep, hliteral⟩ := h
  have hlt := byte.toNat_lt
  simp only [inflateStep, hstep, passReadLiteralOrLength2, hliteral, if_pos hlt,
    infOutbufPutc_eq build hring.ptr_le, UInt8.ofNat_toNat] at he
  by_cases hfull : p.free = 0
  · rw [if_pos hfull] at he
    cases he
    cases hgo
  · rw [if_neg hfull] at he
    cases he
    exact ⟨⟨rfl, ⟨_, _, rfl⟩, _, hring.put byte⟩, rfl⟩

/-- The step that copies a match, or its last part, resumes behind it. -/
theorem resumes_copy {build : Build} {p : InfPass} {distance length : ℕ} {history : List UInt8}
    {e : InfEffect} (hring : RingHolds p.state.outputBuf history)
    (h : Stands p (.copy distance length)) (he : inflateStep build p = .ok e)
    (hgo : e.signal = .proceed) : Resumes p e.pass := by
  obtain ⟨hstep, -, -⟩ := h
  simp only [inflateStep, hstep, passOutputSequence] at he
  cases hread : infOutbufRead build p.state.outputBuf p.state.sequenceDist
      (min p.state.sequenceLen p.free) with
  | error fault =>
    rw [hread] at he
    cases he
  | ok read =>
    obtain ⟨succ, bytes, outputBuf⟩ := read
    rw [hread] at he
    dsimp only at he
    cases succ with
    | false =>
      cases he
      cases hgo
    | true =>
      have hstores := infOutbufRead_stores hring.ptr_le hread
      by_cases hfull : decide (p.state.sequenceLen ≤ p.free) = true
      · rw [if_neg Bool.noConfusion, if_pos hfull] at he
        cases he
        exact ⟨rfl, ⟨_, _, rfl⟩, _, by rw [hstores]; exact hring.foldl_put bytes⟩
      · rw [if_neg Bool.noConfusion, if_neg hfull] at he
        cases he
        cases hgo

/-! ### The tokens that have been written -/

/-- With the decoders of the fixed codes, in front of a symbol or of the first one. -/
structure AtTokens (p : InfPass) (bits : List Bool) : Prop where
  symbols : ∃ history, InSymbols fixedLiteralLengths fixedDistanceLengths p history bits
  step : p.state.step = .processCompressedBlock ∨ p.state.step = .readLiteralOrLength

/-- Behind a token, the decoder is in front of the next symbol again. -/
theorem Resumes.atTokens {p q : InfPass} {history : List UInt8} {bits : List Bool}
    (h : Resumes p q) (hp : InSymbols fixedLiteralLengths fixedDistanceLengths p history bits) :
    AtTokens q bits := by
  obtain ⟨hinput, ⟨outputBuf, sequenceLen, hstate⟩, history', hring⟩ := h
  obtain ⟨state, input, free⟩ := q
  dsimp only at hinput hstate hring
  subst hinput hstate
  exact ⟨⟨history', ⟨hp.faces, hring, hp.fresh, hp.statics⟩,
    ⟨hp.literalPoints.table, hp.literalPoints.le⟩,
    ⟨hp.distancePoints.table, hp.distancePoints.le⟩⟩, .inr rfl⟩

/-- One token. -/
theorem readsToken_spec {build : Build} (hndebug : build.ndebug = true) {token : Token}
    {bits rest : List Bool} (htoken : TokenBits fixedLiteralLengths fixedDistanceLengths token bits)
    {p : InfPass} (h : AtTokens p (bits ++ rest)) :
    ∃ q history, Reaches (inflateStep build) p [] q ∧ Stands q token ∧
      InSymbols fixedLiteralLengths fixedDistanceLengths q history rest := by
  obtain ⟨⟨history, hsymbols⟩, hstep⟩ := h
  cases htoken with
  | literal hsymbol =>
    obtain ⟨q, hlead, hq, hstep', hliteral⟩ := readSymbol_spec build hsymbols hstep
      (takeSymbol_symbolBits kraftLe_fixedLiteralLengths hsymbol rest)
    exact ⟨q, history, hlead.reaches, ⟨hstep', hliteral⟩, hq⟩
  | @copy back length lengthSymbol backSymbol _ _ _ _ hlength hlengthExtra hback hbackExtra =>
    simp only [List.append_assoc] at hsymbols
    have hlow : 256 < lengthSymbol + 257 := by omega
    obtain ⟨hhigh, -⟩ := lengthCodes_some hlengthExtra.choose_spec.choose_spec.1
    obtain ⟨hhigh', -⟩ := distanceCodes_some hbackExtra.choose_spec.choose_spec.1
    obtain ⟨q₁, hlead₁, h₁, hstep₁, hliteral₁⟩ := readSymbol_spec build hsymbols hstep
      (takeSymbol_symbolBits kraftLe_fixedLiteralLengths hlength _)
    obtain ⟨q₂, hlead₂, h₂, hstep₂, hliteral₂⟩ :=
      lengthSymbol_spec build h₁ hstep₁ hliteral₁ hlow (by omega)
    rw [Nat.add_sub_cancel] at hliteral₂
    obtain ⟨q₃, hlead₃, h₃, hstep₃, hlen₃⟩ := lengthBits_spec build h₂ hstep₂
      (hliteral₂ ▸ takeExtra_extraBits hlengthExtra _)
    obtain ⟨q₄, hlead₄, h₄, hstep₄, hliteral₄, hlen₄⟩ := distanceSymbol_spec build h₃ hstep₃
      (takeSymbol_symbolBits kraftLe_fixedDistanceLengths hback _) hhigh'
    obtain ⟨q₅, hlead₅, h₅, hstep₅, hdist₅, hlen₅⟩ := distanceBits_spec build h₄ hstep₄
      (hliteral₄ ▸ takeExtra_extraBits hbackExtra rest) (.inl hndebug)
    exact ⟨q₅, history,
      (hlead₁.trans (hlead₂.trans (hlead₃.trans (hlead₄.trans hlead₅)))).reaches,
      ⟨hstep₅, hdist₅, hlen₅.trans (hlen₄.trans hlen₃)⟩, h₅⟩

/-- Tokens one after the other. -/
theorem reads_tokens {build : Build} (hndebug : build.ndebug = true) {tokens : List Token}
    {bits : List Bool} (htokens : TokensBits fixedLiteralLengths fixedDistanceLengths tokens bits)
    (rest : List Bool) :
    ∀ {p : InfPass}, AtTokens p (bits ++ rest) → ReadsTokens build rest tokens p := by
  induction htokens with
  | nil =>
    rintro p ⟨⟨history, hsymbols⟩, -⟩
    exact hsymbols.faces
  | cons htoken _ ih =>
    intro p h
    rw [List.append_assoc] at h
    obtain ⟨q, history, hreaches, hstands, hq⟩ := readsToken_spec hndebug htoken h
    exact ⟨q, hreaches, hstands, fun p' hresumes ↦ ih (hresumes.atTokens hq)⟩

/-- For calls with any literals and any matches of at least 3 bytes at a distance up to 32768, written
at any alignment: the writer does not fail and stays within its buffer, and where the bits that it
appended stand in front of the decoders of the fixed codes, the steps read the literals and, for each
match, matches at its distance of 3 to 258 bytes each that are as long together, and consume these
bits. -/
theorem tokens_agree (build : Build) {calls : List Token} (hcalls : ∀ call ∈ calls, Encodable call)
    {out : UzlibComp} {before : List Bool} (henabled : out.compDisabled = false)
    (hemitted : Emitted out before) (hroom : out.outlen ≤ out.outsize) :
    ∃ out' tokens bits, calls.foldlM (callToken build) out = .ok out' ∧
      Emitted out' (before ++ bits) ∧ out'.outlen ≤ out'.outsize ∧ Splits calls tokens ∧
      ∀ (reader : Build) (p : InfPass) (history : List UInt8) (rest : List Bool),
        reader.ndebug = true → p.state.step = .loadFixedHuffmanDecoders →
        At p history (bits ++ rest) →
          ∃ q, Reaches (inflateStep reader) p [] q ∧
            q.state.literalDecoder = some .fixedLiteral ∧
            q.state.distanceDecoder = some .fixedDistance ∧ ReadsTokens reader rest tokens q := by
  obtain ⟨tokens, bits, hsplits, htokens, happends⟩ := appends_calls build calls hcalls
  obtain ⟨out', hout, hemitted', -⟩ := happends out before henabled hemitted
  refine ⟨out', tokens, bits, hout, hemitted', keepsRoom_calls build calls out out' hroom hout,
    hsplits, fun reader p history rest hndebug hstep hp ↦ ?_⟩
  obtain ⟨q, hlead, hstep', hsymbols, hliteral, hdistance⟩ := fixedDecoders_spec reader hp hstep
  exact ⟨q, hlead.reaches, hliteral, hdistance,
    reads_tokens hndebug htokens rest ⟨⟨history, hsymbols⟩, .inl hstep'⟩⟩

/-- A letter and a match of 300 bytes at the largest distance, in front of a fresh decoder. -/
theorem tokens_agree_long : ∃ (tokens : List Token) (p q : InfPass) (rest : List Bool),
    Splits [.literal 97, .copy 32768 300] tokens ∧ p.state.step = .loadFixedHuffmanDecoders ∧
      Reaches (inflateStep ⟨true, none⟩) p [] q ∧ ReadsTokens ⟨true, none⟩ rest tokens q := by
  have hcalls : ∀ call ∈ [Token.literal 97, .copy 32768 300], Encodable call := by
    simp [Encodable]
  have hemitted : Emitted emptyTable [] :=
    ⟨[], [], ⟨.inr ⟨rfl, rfl, rfl⟩, rfl, rfl, rfl⟩, by norm_num, rfl⟩
  obtain ⟨out', tokens, bits, -, hemitted', -, hsplits, hreads⟩ :=
    tokens_agree ⟨false, none⟩ hcalls rfl hemitted le_rfl
  obtain ⟨_, body, _, -, -, hbody, -⟩ := outbits_align ⟨false, none⟩ hemitted'
  have hat := at_fresh soundStatics_none zeroHeap body 1
  rw [hbody, List.nil_append] at hat
  obtain ⟨q, hreaches, -, -, hq⟩ := hreads ⟨true, none⟩
    ⟨{ (inflateInit ⟨none, none⟩ zeroHeap).core with step := .loadFixedHuffmanDecoders }, body, 1⟩ []
    (paddingBits bits) rfl rfl ⟨hat.faces, hat.ring, hat.fresh, hat.statics⟩
  exact ⟨tokens, _, q, _, hsplits, rfl, hreaches, hq⟩

end ZephyrThrift.Muzic
