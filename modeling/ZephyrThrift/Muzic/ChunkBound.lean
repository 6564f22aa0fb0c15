import ZephyrThrift.Muzic.FinishRetry

/-!
# How much a chunk can grow

A byte costs at most nine bits, and a match at most nine bits for each of its bytes, so a chunk becomes
at most an eighth longer, and some bytes for what is around it (`chunkBound`); and a match of 258 bytes
costs at least twelve bits, so a chunk becomes at most 172 times shorter. In every history what was
delivered and what is pending stay within these bounds (`deflate_sized`), and a window with room for
the bound takes everything (`deflate_fits`).
-/

set_option autoImplicit false
set_option relaxedAutoImplicit false

namespace ZephyrThrift.Muzic

open Foundation

/-! ### Tokens in fixed codes -/

/-- No length symbol costs more than nine bits for each byte of its shortest match, with the longest
distance; and its code word has seven bits or more. -/
theorem cost_lengthCodes : ∀ symbol < lengthCodes.length, ∀ code ∈ lengthCodes[symbol]?,
    lengthAt fixedLiteralLengths (symbol + 257) + code.1 + 18 ≤ 9 * code.2 ∧
      7 ≤ lengthAt fixedLiteralLengths (symbol + 257) := by decide

theorem cost_distanceCodes : ∀ symbol < distanceCodes.length, ∀ code ∈ distanceCodes[symbol]?,
    lengthAt fixedDistanceLengths symbol + code.1 ≤ 18 ∧ 5 ≤ lengthAt fixedDistanceLengths symbol := by
  decide

theorem cost_literals : ∀ symbol < 256,
    8 ≤ lengthAt fixedLiteralLengths symbol ∧ lengthAt fixedLiteralLengths symbol ≤ 9 := by
  decide +kernel

theorem lt_of_getElem?_some {α : Type} {items : List α} {index : ℕ} {item : α}
    (h : items[index]? = some item) : index < items.length :=
  (List.getElem?_eq_some_iff.mp h).1

/-- The bits of a token, against the bytes that it stands for. -/
theorem tokenBits_length {token : Token} {bits : List Bool} {history : List UInt8}
    (h : TokenBits fixedLiteralLengths fixedDistanceLengths token bits)
    (hvalid : token.Valid 32768 history) :
    bits.length ≤ 9 * (token.bytes history).length ∧
      12 * (token.bytes history).length ≤ 258 * bits.length := by
  cases h with
  | @literal byte _ hsymbol =>
    obtain ⟨hmin, hmax⟩ := cost_literals byte.toNat byte.toNat_lt
    rw [hsymbol.2, length_codeWord]
    simp only [Token.bytes, List.length_singleton]
    omega
  | @copy back length lengthSymbol backSymbol _ _ _ _ hlength hlengthExtra hback hbackExtra =>
    obtain ⟨extra, first, hcode, hfirst, -, rfl⟩ := hlengthExtra
    obtain ⟨extra', first', hcode', -, -, rfl⟩ := hbackExtra
    obtain ⟨hcost, hshort⟩ := cost_lengthCodes lengthSymbol (lt_of_getElem?_some hcode) _ hcode
    obtain ⟨hcost', hshort'⟩ := cost_distanceCodes backSymbol (lt_of_getElem?_some hcode') _ hcode'
    have hmax := hvalid.2.1
    rw [hlength.2, hback.2]
    simp only [Token.bytes, length_overlap, List.length_append, length_codeWord, length_bitsOf]
    omega

theorem tokensBits_length {tokens : List Token} {bits : List Bool}
    (h : TokensBits fixedLiteralLengths fixedDistanceLengths tokens bits) :
    ∀ {history : List UInt8}, ValidTokens 32768 history tokens →
      bits.length ≤ 9 * (expand history tokens).length ∧
        12 * (expand history tokens).length ≤ 258 * bits.length := by
  induction h with
  | nil => exact fun _ ↦ ⟨le_rfl, le_rfl⟩
  | cons htoken _ ih =>
    rintro history ⟨hvalid, hvalids⟩
    obtain ⟨hmost, hleast⟩ := tokenBits_length htoken hvalid
    obtain ⟨hmost', hleast'⟩ := ih hvalids
    rw [expand, List.length_append, List.length_append]
    omega

/-! ### Chunks -/

/-- A bound on what a chunk of so many bytes becomes. -/
def chunkBound (count : ℕ) : ℕ := count + (count + 20) / 8 + 6

/-- The bytes of a chunk: at most the bound, and at least one for 172 of its own. -/
theorem chunkBytes_length {flush : Flush} {first : Bool} {adlerV : ℕ} {input bytes : List UInt8}
    (h : ChunkBytes flush first adlerV input bytes) :
    bytes.length ≤ chunkBound input.length ∧ input.length ≤ 172 * bytes.length := by
  obtain ⟨tokens, bits, body, htokens, hvalid, rfl, rfl, hbody⟩ := h
  obtain ⟨hmost, hleast⟩ := tokensBits_length htokens hvalid
  have hlength := congrArg List.length hbody
  have hend : lengthAt fixedLiteralLengths 256 = 7 := by decide +kernel
  simp only [length_bytesBits, blockBits, paddingBits, List.length_append, length_bitsOf,
    length_codeWord, hend, List.length_replicate] at hlength
  have hheader : (chunkHeader flush first).length ≤ 2 := by
    rw [chunkHeader]
    split_ifs <;> simp
  have hclosing : (closingBytes flush adlerV).length = 4 := by
    rw [closingBytes]
    split_ifs <;> rfl
  have hblock : (closingBits flush).length ≤ 3 := by
    rw [closingBits]
    split_ifs <;> simp
  simp only [List.length_append, chunkBound]
  omega

/-! ### Calls -/

/-- The output that a state keeps. -/
def UzlibComp.kept (ustate : UzlibComp) : ℕ := if ustate.outbuf = none then 0 else ustate.outlen

instance (call : DeflateCall) : Decidable call.Encodes := inferInstanceAs (Decidable (_ ∧ _))

/-- What a call may add to the output: the bound of the chunk that it gets to. -/
def DeflateCall.allowance (call : DeflateCall) : ℕ :=
  if call.Encodes then chunkBound call.strm.availIn else 0

section Calls

variable {build : Build} {memory : Memory} {strm : ZStream} {ustate : UzlibComp} {flush : Flush}
  {pending : List UInt8} {r : DeflateResult}

/-- What a call makes of its chunk, and what becomes of it. -/
theorem ChunkCall.sized (h : ChunkCall build memory strm ustate flush r)
    (hrested : ustate.outbuf = none) :
    r.stored.length + r.state.kept ≤
        (if strm.availIn ≠ 0 ∨ flush = .finish then chunkBound strm.availIn else 0) ∧
      strm.availIn ≤ 172 * (r.stored.length + r.state.kept) := by
  have hsize : ∀ {encoded : UzlibComp} {bytes : List UInt8} {adlerV : ℕ},
      Encoded build ustate (memory.bytes strm.nextIn strm.availIn) flush adlerV encoded bytes →
        bytes.length ≤ chunkBound strm.availIn ∧ strm.availIn ≤ 172 * bytes.length := by
    intro encoded bytes adlerV hencoded
    have hlength := chunkBytes_length hencoded.chunk
    rwa [Memory.length_bytes] at hlength
  cases h with
  | nothing hin hflush =>
    rw [if_neg (by simp [hin, hflush]), UzlibComp.kept, if_pos hrested, hin]
    exact ⟨le_rfl, Nat.zero_le _⟩
  | delivers _ hencoded hin _ =>
    rw [if_pos hin]
    exact hsize hencoded
  | @spills encoded bytes _ _ hencoded hin _ hroom =>
    rw [if_pos (.inl hin)]
    have hboth : (bytes.take strm.availOut).length + (bytes.length - strm.availOut) = bytes.length := by
      rw [List.length_take]
      omega
    simp only [UzlibComp.kept, reduceCtorEq, if_false, hboth]
    exact hsize hencoded
  | @refuses encoded bytes _ _ hencoded hflush _ =>
    rw [if_pos (.inr hflush)]
    simp only [UzlibComp.kept, reduceCtorEq, if_false, List.length_nil, Nat.zero_add]
    exact hsize hencoded

/-- In a window with room for the bound, a chunk is delivered. -/
theorem ChunkCall.fits (h : ChunkCall build memory strm ustate flush r)
    (hrested : ustate.outbuf = none) (hroom : chunkBound strm.availIn ≤ strm.availOut) :
    r.strm.availIn = 0 ∧ r.state.outbuf = none ∧
      r.code = if flush = .finish then .streamEnd else .ok := by
  have hsize : ∀ {encoded : UzlibComp} {bytes : List UInt8} {adlerV : ℕ},
      Encoded build ustate (memory.bytes strm.nextIn strm.availIn) flush adlerV encoded bytes →
        bytes.length ≤ strm.availOut := by
    intro encoded bytes adlerV hencoded
    have hlength := (chunkBytes_length hencoded.chunk).1
    rw [Memory.length_bytes] at hlength
    exact hlength.trans hroom
  cases h with
  | nothing hin hflush => exact ⟨hin, hrested, (if_neg hflush).symm⟩
  | delivers => exact ⟨rfl, rfl, rfl⟩
  | spills _ hencoded _ _ hfull => exact absurd hfull (not_lt.mpr (hsize hencoded))
  | refuses _ hencoded _ hfull => exact absurd hfull (not_lt.mpr (hsize hencoded))

/-- What a call adds to the output that was kept. -/
theorem DeflateStep.sized (h : DeflateStep build memory strm ustate flush pending r)
    (hdelivering : Delivering ustate strm.totalOut pending) :
    r.stored.length + r.state.kept ≤
        ustate.kept + (DeflateCall.mk memory strm ustate flush r).allowance ∧
      ustate.kept ≤ r.stored.length + r.state.kept ∧
        (DeflateCall.mk memory strm ustate flush r).consumed.length ≤
          172 * (r.stored.length + r.state.kept - ustate.kept) := by
  have hkept : ustate.kept = pending.length := waiting_eq memory flush r hdelivering
  have hconsumed : (DeflateCall.mk memory strm ustate flush r).consumed.length =
      if r.strm.availIn = strm.availIn then 0 else strm.availIn := by
    rw [DeflateCall.consumed]
    split_ifs
    · rfl
    · exact Memory.length_bytes _ _ _
  have hencodes : (DeflateCall.mk memory strm ustate flush r).Encodes ↔
      pending.length ≤ strm.availOut ∧ (strm.availIn ≠ 0 ∨ flush = .finish ∧ ustate.outbuf = none) := by
    rw [← waiting_eq memory flush r hdelivering]
    rfl
  rw [DeflateCall.allowance, hkept, hconsumed]
  simp only [hencodes]
  cases h with
  | stays _ _ hroom =>
    simp only [UzlibComp.kept, reduceCtorEq, if_false, List.length_take, ZStream.drained, if_true]
    omega
  | drains _ _ hin =>
    simp only [UzlibComp.kept, if_true, ZStream.drained]
    omega
  | @continues r' hpending hroom hin hchunk =>
    obtain ⟨hmost, hleast⟩ := hchunk.sized rfl
    rw [if_pos ⟨hroom, .inl hin⟩]
    rw [if_pos (.inl hin)] at hmost
    simp only [ZStream.drained] at hmost hleast
    simp only [List.length_append]
    split_ifs <;> omega
  | fresh hpending hchunk =>
    have hnone := (hpending ▸ hdelivering).idle.outbuf
    obtain ⟨hmost, hleast⟩ := hchunk.sized hnone
    simp only [hpending, List.length_nil, Nat.zero_le, hnone, and_true, true_and, Nat.zero_add,
      Nat.sub_zero]
    refine ⟨hmost, ?_⟩
    split_ifs <;> omega

end Calls

/-! ### Histories -/

/-- In every history, with any windows, what was delivered and what is kept stay within the bounds of
the chunks that were read, and what was consumed within 172 times as much. -/
theorem deflate_sized {build : Build} {start strm : ZStream} {calls : List DeflateCall}
    {ustate : UzlibComp} (hrun : DeflateRun build start calls strm ustate) :
    (delivered calls).length + ustate.kept ≤ (calls.map DeflateCall.allowance).sum ∧
      (consumedBytes calls).length ≤ 172 * ((delivered calls).length + ustate.kept) := by
  induction hrun with
  | init heap => exact ⟨le_rfl, Nat.zero_le _⟩
  | @call calls strm strm' ustate memory flush r hearlier hstrm hr ih =>
    obtain ⟨pending, hdelivering, hstep⟩ := (hearlier.call hstrm hr).steps
      ⟨memory, strm', ustate, flush, r⟩ (List.mem_append_right _ (List.mem_singleton.mpr rfl))
    obtain ⟨hmost, hgrows, hleast⟩ := hstep.sized hdelivering
    rw [delivered_append, consumedBytes_append, List.map_append, List.sum_append, List.length_append,
      List.length_append, List.map_singleton, List.sum_singleton]
    simp only at hmost hgrows hleast ⊢
    omega

/-- In every history, a call whose window has room for the output that was kept and for the bound of its
chunk consumes the chunk, delivers everything, and is not refused. -/
theorem deflate_fits {build : Build} {start strm : ZStream} {calls : List DeflateCall}
    {ustate : UzlibComp} (hrun : DeflateRun build start calls strm ustate) {call : DeflateCall}
    (hcall : call ∈ calls)
    (hroom : call.state.kept + chunkBound call.strm.availIn ≤ call.strm.availOut) :
    call.result.strm.availIn = 0 ∧ call.result.state.outbuf = none ∧
      call.result.code = if call.Encodes ∧ call.flush = .finish then .streamEnd else .ok := by
  obtain ⟨pending, hdelivering, hstep⟩ := hrun.steps call hcall
  obtain ⟨memory, strm', ustate', flush, r⟩ := call
  have hkept : ustate'.kept = pending.length := waiting_eq memory flush r hdelivering
  have hencodes : (DeflateCall.mk memory strm' ustate' flush r).Encodes ↔
      pending.length ≤ strm'.availOut ∧
        (strm'.availIn ≠ 0 ∨ flush = .finish ∧ ustate'.outbuf = none) := by
    rw [← waiting_eq memory flush r hdelivering]
    rfl
  simp only [hencodes]
  simp only [hkept] at hroom hstep
  cases hstep with
  | stays _ _ hfull => omega
  | drains hpending _ hin =>
    refine ⟨hin, rfl, (if_neg ?_).symm⟩
    rintro ⟨⟨-, hsome | ⟨-, hnone⟩⟩, -⟩
    · exact hsome hin
    · rcases hdelivering.outbuf with ⟨-, hempty⟩ | ⟨-, -, block, hblock, -⟩
      · exact hpending hempty
      · cases hnone.symm.trans hblock
  | continues _ hfit hin hchunk =>
    obtain ⟨hread, hnone, hcode⟩ := hchunk.fits rfl (by simp only [ZStream.drained]; omega)
    refine ⟨hread, hnone, hcode.trans ?_⟩
    simp only [hfit, hin, ne_eq, not_false_eq_true, true_or, and_self, true_and]
  | fresh hpending hchunk =>
    have hnone : ustate'.outbuf = none := (hpending ▸ hdelivering).idle.outbuf
    obtain ⟨hread, hnone', hcode⟩ := hchunk.fits hnone (by omega)
    refine ⟨hread, hnone', hcode.trans ?_⟩
    by_cases hfinish : flush = .finish
    · simp [hfinish, hnone, hpending]
    · simp [hfinish]

/-- The letter `a`, finished into a window of ten bytes, of which it takes nine. -/
theorem letter_run : ∃ r strm ustate,
    DeflateRun ⟨false, none⟩ letterStrm
      [⟨fun _ ↦ 97, { letterStrm with availOut := 10 }, letterState, .finish, r⟩] strm ustate ∧
      r.stored.length = 9 ∧ r.code = .streamEnd := by
  have hvalues : (deflate ⟨false, none⟩ (fun _ ↦ 97) { letterStrm with availOut := 10 } letterState
      .finish).map (fun r ↦ (r.stored.length, r.code)) = .ok (9, .streamEnd) := by decide +kernel
  obtain ⟨r, hr, hvalues⟩ := map_ok hvalues
  obtain ⟨hlength, hcode⟩ := Prod.mk.inj hvalues
  have hhands : Hands (deflateInit letterStrm letterState).1 { letterStrm with availOut := 10 } :=
    ⟨rfl, rfl, rfl⟩
  exact ⟨r, _, _, .call (.init letterState) hhands hr, hlength, hcode⟩

theorem deflate_sized_letter : ∃ calls, ∃ ustate : UzlibComp, (delivered calls).length = 9 ∧
    (delivered calls).length + ustate.kept ≤ (calls.map DeflateCall.allowance).sum ∧
      (consumedBytes calls).length ≤ 172 * ((delivered calls).length + ustate.kept) := by
  obtain ⟨r, strm, ustate, hrun, hlength, -⟩ := letter_run
  refine ⟨_, ustate, ?_, deflate_sized hrun⟩
  rw [delivered, List.flatMap_singleton]
  exact hlength

theorem deflate_fits_letter : ∃ call : DeflateCall, call.strm.availIn = 1 ∧ call.flush = .finish ∧
    call.result.strm.availIn = 0 ∧ call.result.state.outbuf = none ∧
      call.result.code = if call.Encodes ∧ call.flush = .finish then .streamEnd else .ok := by
  obtain ⟨r, strm, ustate, hrun, -⟩ := letter_run
  exact ⟨_, rfl, rfl, deflate_fits hrun (List.mem_singleton.mpr rfl)
    (show letterState.kept + chunkBound 1 ≤ 10 by decide)⟩

end ZephyrThrift.Muzic
