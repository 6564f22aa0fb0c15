import ZephyrThrift.Muzic.Orderly
import ZephyrThrift.Muzic.SymbolDecoding

/-!
# Decoding blocks and streams

The passes over a block store what the reference decoder outputs (`block_spec`), and so do those over
all blocks up to the final one, after which the trailer is skipped (`body_spec`). On a fresh inflater,
one call with a whole well-formed stream of at most 32 KiB of output returns `Z_STREAM_END`, writes
what the stream decodes to and stops behind the trailer (`inflate_decodes`).
-/

set_option autoImplicit false
set_option relaxedAutoImplicit false

namespace ZephyrThrift.Muzic

open Foundation

/-! ### Whole bytes -/

/-- Behind the padding stand the bytes of the input. -/
theorem alignBits_of_faces {bitstream : InfBS} {bits : List Bool} (h : bitstream.Faces 7 bits) :
    alignBits bits = bytesBits bitstream.input := by
  have hpadding : bits.length % 8 = bitstream.size := by
    have hsmall := h.small
    rw [← h.view, InfBS.length_view]
    omega
  rw [alignBits, hpadding, ← h.view, InfBS.view, List.drop_left' (length_bitsOf _ _)]

/-! ### The header of a block -/

/-- In front of a block. -/
structure AtBlock (p : InfPass) (history : List UInt8) (bits : List Bool) : Prop
    extends At p history bits where
  step : p.state.step = .processNextBlock
  notLast : p.state.isLastBlock = 0

/-- The step that a block of the given type starts with. -/
def blockStep : ℕ → InfStep
  | 0 => .processUncompressedBlock
  | 1 => .loadFixedHuffmanDecoders
  | _ => .loadDynamicHuffmanDecoders

section Block

variable (build : Build) {p : InfPass} {history stored : List UInt8}
  {bits bits₁ bits₂ rest : List Bool}  {final blockType : ℕ}

/-- Reading the header of a block. -/
theorem passReadBlockHeader_spec (hfaces : (bitstreamOf p).Faces 7 bits)
    (hfinal : takeBits 1 bits = some (final, bits₁))
    (htype : takeBits 2 bits₁ = some (blockType, bits₂)) (hvalid : blockType < 3) :
    ∃ after, passReadBlockHeader p = .ok ⟨withState (withBitstream p after) fun st ↦
        { st with isLastBlock := final, step := blockStep blockType }, [], .proceed⟩ ∧
      after.Faces 7 bits₂ := by
  have hbit : final < 2 ^ 1 := parseBits_lt (parseBits_eq_done.mpr hfinal)
  obtain ⟨after, hread, hafter⟩ :=
    hfaces.readBits le_rfl (show 1 + 2 ≤ 25 by norm_num) (takeBits_add hfinal htype)
  have hlast : (final + 2 ^ 1 * blockType) &&& 0x01 = final := by
    rw [show 0x01 = 2 ^ 1 - 1 by norm_num, Nat.and_two_pow_sub_one_eq_mod]
    omega
  have hkind : (final + 2 ^ 1 * blockType) >>> 1 = blockType := by
    rw [Nat.shiftRight_eq_div_pow]
    omega
  refine ⟨after, ?_, hafter⟩
  rw [passReadBlockHeader, show 3 = 1 + 2 from rfl, hread]
  simp only [reading, hlast, hkind]
  interval_cases blockType <;> rfl

theorem blockHeader_spec (h : AtBlock p history bits) (hfinal : takeBits 1 bits = some (final, bits₁))
    (htype : takeBits 2 bits₁ = some (blockType, bits₂)) (hvalid : blockType < 3) :
    ∃ q, Reaches (inflateStep build) p [] q ∧ At q history bits₂ ∧ q.free = p.free ∧
      q.state.step = blockStep blockType ∧ q.state.isLastBlock = final := by
  have hproceed : inflateStep build p =
      .ok ⟨withState p fun st ↦ { st with step := .readBlockHeader }, [], .proceed⟩ := by
    simp only [inflateStep, h.step, passProcessNextBlock, h.notLast, ne_eq, not_true, if_false]
    rfl
  obtain ⟨after, hpass, hafter⟩ := passReadBlockHeader_spec
    (p := withState p fun st ↦ { st with step := .readBlockHeader }) h.faces hfinal htype hvalid
  have hread : inflateStep build (withState p fun st ↦ { st with step := .readBlockHeader }) = _ :=
    hpass
  exact ⟨withState (withBitstream p after) fun st ↦
      { st with isLastBlock := final, step := blockStep blockType },
    (Reaches.single hproceed rfl).trans (Reaches.single hread rfl),
    ⟨hafter, h.ring, h.fresh, h.statics⟩, rfl, rfl, rfl⟩

/-! ### Blocks -/

/-- The lengths of a stored block. -/
theorem storedLengths_spec (h : At p history bits) (hstep : p.state.step = .processUncompressedBlock)
    {count : ℕ} (hcount : takeBits 16 (alignBits bits) = some (count, bits₁))
    (hcomplement : takeBits 16 bits₁ = some (2 ^ 16 - 1 - count, bits₂)) :
    ∃ q, Leads build p [] q ∧ At q history bits₂ ∧ q.state.step = .outputUncompressedBlock ∧
      q.state.sequenceLen = count ∧ q.state.size = 0 := by
  have hlt : count < 2 ^ 16 := parseBits_lt (parseBits_eq_done.mpr hcount)
  obtain ⟨input, hread, hinput⟩ :=
    h.faces.readDWord build (by norm_num) (takeBits_add hcount hcomplement)
  have hlow : (count + 2 ^ 16 * (2 ^ 16 - 1 - count)) &&& 0xFFFF = count := by
    rw [show 0xFFFF = 2 ^ 16 - 1 by norm_num, Nat.and_two_pow_sub_one_eq_mod]
    omega
  have hhigh : (2 ^ 32 - 1 - (count + 2 ^ 16 * (2 ^ 16 - 1 - count))) >>> 16 = count := by
    rw [Nat.shiftRight_eq_div_pow]
    omega
  refine ⟨withState (withBitstream p ⟨0, 0, input⟩) fun st ↦
    { st with sequenceLen := count, step := .outputUncompressedBlock }, Leads.single ?_ rfl rfl,
    ⟨⟨hinput, Nat.one_pos, Nat.zero_le 7⟩, h.ring, h.fresh, h.statics⟩,
    rfl, rfl, rfl⟩
  simp only [inflateStep, hstep, passProcessUncompressedBlock, hread, reading, hlow, hhigh]
  exact if_neg fun hne ↦ hne rfl

/-- The bytes of a stored block. -/
theorem storedBytes_spec (h : At p history bits) (hstep : p.state.step = .outputUncompressedBlock)
    (hsize : p.state.size = 0)
    (hbytes : takeBytes p.state.sequenceLen bits = some (stored, rest)) (hfree : stored.length ≤ p.free) :
    ∃ q, Leads build p stored q ∧ At q (history ++ stored) rest ∧
      q.state.step = .processNextBlock := by
  have hbits : bits = bytesBits p.input := by
    rw [← h.faces.view, InfBS.view, bitstreamOf]
    simp only [hsize]
    rfl
  rw [hbits] at hbytes
  obtain ⟨input', hinput, hlength, rfl⟩ := takeBytes_bytesBits hbytes
  have hcount : min p.state.sequenceLen p.free = stored.length := by
    rw [hlength]
    exact min_eq_left (hlength ▸ hfree)
  have hread : (bitstreamOf p).readBytes build stored.length =
      .ok (stored, true, ⟨p.state.bits, 0, input'⟩) := by
    have hmin : min stored.length p.input.length = stored.length := by
      rw [hinput, List.length_append]
      omega
    simp only [InfBS.readBytes, bitstreamOf, hsize, beq_self_eq_true, Build.assert_true, hmin]
    rw [hinput, List.take_left, List.drop_left]
  have hlow := h.faces.low
  simp only [bitstreamOf, hsize] at hlow
  refine ⟨withState (withBitstream { p with free := p.free - stored.length } ⟨p.state.bits, 0, input'⟩)
    fun st ↦
    { st with
      outputBuf := infOutbufWrite st.outputBuf stored
      sequenceLen := st.sequenceLen - stored.length
      step := .processNextBlock }, Leads.single ?_ ?_ rfl,
    ⟨⟨rfl, hlow, Nat.zero_le 7⟩, ?_, h.fresh, h.statics⟩, rfl⟩
  · simp only [inflateStep, hstep, passOutputUncompressedBlock, hcount, hread]
    rw [if_neg (by decide), if_neg (by simp only [withState, withBitstream]; omega)]
    rfl
  · simp only [withState, withBitstream]
    omega
  · simp only [withState, withBitstream, infOutbufWrite_eq]
    exact h.ring.foldl_put stored

/-- The fixed decoders. -/
theorem fixedDecoders_spec (h : At p history bits) (hstep : p.state.step = .loadFixedHuffmanDecoders) :
    ∃ q, Leads build p [] q ∧ q.state.step = .processCompressedBlock ∧
      InSymbols fixedLiteralLengths fixedDistanceLengths q history bits ∧
      q.state.literalDecoder = some .fixedLiteral ∧
      q.state.distanceDecoder = some .fixedDistance := by
  obtain ⟨literal, list, hliteral, hdecodes, hfresh⟩ :=
    infHuffMakeFixedLiteralDecoder_spec build h.statics.literal h.fresh
  obtain ⟨distance, list', hdistance, hdecodes', hfresh'⟩ :=
    infHuffMakeFixedDistanceDecoder_spec build h.statics.distance hfresh
  refine ⟨withState p fun st ↦
    { st with
      sllist := list'
      statics := ⟨some literal, some distance⟩
      literalDecoder := some .fixedLiteral
      distanceDecoder := some .fixedDistance
      step := .processCompressedBlock }, Leads.single ?_ rfl rfl, rfl,
    ⟨⟨h.faces, h.ring, hfresh', ⟨fun table htable ↦ ?_, fun table htable ↦ ?_⟩⟩,
      ⟨⟨literal, rfl, hdecodes⟩, kraftLe_fixedLiteralLengths.1⟩,
      ⟨⟨distance, rfl, hdecodes'⟩, kraftLe_fixedDistanceLengths.1⟩⟩, rfl, rfl⟩
  · simp only [inflateStep, hstep, passLoadFixedHuffmanDecoders, hliteral, hdistance, bind, Except.bind]
    rfl
  · cases htable
    exact hdecodes
  · cases htable
    exact hdecodes'

/-- The decoders of a dynamic header. -/
theorem dynamicDecoders_spec (h : At p history bits)
    (hstep : p.state.step = .loadDynamicHuffmanDecoders) {literal distance : List ℕ}
    (hparse : parseDynamicCodes bits = .done (literal, distance) rest) :
    ∃ q, Leads build p [] q ∧ q.state.step = .processCompressedBlock ∧
      InSymbols literal distance q history rest := by
  obtain ⟨q, hreach, huntouched, hloaded⟩ :=
    (header_spec (fun _ _ ↦ rfl) le_rfl hstep h.fresh h.faces).1 literal distance rest hparse
  refine ⟨q, Leads.of_untouched hreach huntouched, hloaded.step,
    ⟨⟨hloaded.faces, ?_, hloaded.fresh, ?_⟩, hloaded.literalPoints, hloaded.distancePoints⟩⟩
  · rw [huntouched.outputBuf]
    exact h.ring
  · rw [huntouched.statics]
    exact h.statics

/-- One block, behind its header. -/
theorem blockContent_spec (h : At p history bits) (hstep : p.state.step = blockStep blockType)
    (hdecode : decodeBlock blockType history bits = some (history ++ stored, rest))
    (hfits : history.length + stored.length ≤ infOutbufSize) (hfree : stored.length ≤ p.free) :
    ∃ q, Leads build p stored q ∧ At q (history ++ stored) rest ∧
      q.state.step = .processNextBlock := by
  unfold decodeBlock at hdecode
  split at hdecode
  · obtain ⟨count, bits₁, bits₂, bytes, hcount, hcomplement, hbytes, heq⟩ := decodeStored_some hdecode
    obtain rfl := List.append_cancel_left heq
    obtain ⟨q, hlead, hq, hstep', hlen, hsize⟩ :=
      storedLengths_spec build h hstep hcount hcomplement
    have hfree' := hlead.free
    rw [List.length_nil] at hfree'
    obtain ⟨r, hlead', hr, hstep''⟩ := storedBytes_spec build hq hstep' hsize
      (hlen ▸ hbytes) (by omega)
    exact ⟨r, hlead.trans hlead', hr, hstep''⟩
  · obtain ⟨q, hlead, hstep', hq, -⟩ := fixedDecoders_spec build h hstep
    have hfree' := hlead.free
    rw [List.length_nil] at hfree'
    obtain ⟨r, hlead', hr⟩ := symbols_spec build _ hq (.inl hstep') hdecode hfits (by omega)
    exact ⟨r, hlead.trans hlead', hr⟩
  · split at hdecode
    · next hparse =>
      obtain ⟨q, hlead, hstep', hq⟩ := dynamicDecoders_spec build h hstep hparse
      have hfree' := hlead.free
      rw [List.length_nil] at hfree'
      obtain ⟨r, hlead', hr⟩ := symbols_spec build _ hq (.inl hstep') hdecode hfits (by omega)
      exact ⟨r, hlead.trans hlead', hr⟩
    · cases hdecode
  · cases hdecode

theorem blockType_lt {output : List UInt8}
    (h : decodeBlock blockType history bits = some (output, rest)) : blockType < 3 := by
  unfold decodeBlock at h
  split at h
  all_goals first | omega | cases h

/-- One block. -/
theorem block_spec (h : AtBlock p history bits) (hfinal : takeBits 1 bits = some (final, bits₁))
    (htype : takeBits 2 bits₁ = some (blockType, bits₂))
    (hdecode : decodeBlock blockType history bits₂ = some (history ++ stored, rest))
    (hfits : history.length + stored.length ≤ infOutbufSize) (hfree : stored.length ≤ p.free) :
    ∃ q, Reaches (inflateStep build) p stored q ∧ At q (history ++ stored) rest ∧
      q.free + stored.length = p.free ∧ q.state.step = .processNextBlock ∧
      q.state.isLastBlock = final := by
  obtain ⟨q, hreach, hq, hsame, hstep, hlast⟩ :=
    blockHeader_spec build h hfinal htype (blockType_lt hdecode)
  obtain ⟨r, hlead, hr, hstep'⟩ :=
    blockContent_spec build hq hstep hdecode hfits (by omega)
  exact ⟨r, hreach.trans hlead.reaches, hr, hlead.free.trans hsame, hstep',
    hlead.isLastBlock.trans hlast⟩

end Block

/-- The blocks up to the final one. -/
theorem blocks_spec (build : Build) (fuel : ℕ) :
    ∀ {p : InfPass} {history stored : List UInt8} {bits rest : List Bool}, AtBlock p history bits →
      decodeBlocks fuel history bits = some (history ++ stored, rest) →
      history.length + stored.length ≤ infOutbufSize → stored.length ≤ p.free →
        ∃ q, Reaches (inflateStep build) p stored q ∧ At q (history ++ stored) rest ∧
          q.free + stored.length = p.free ∧ q.state.step = .processNextBlock ∧
          q.state.isLastBlock = 1 := by
  induction fuel with
  | zero => intro p history stored bits rest _ hdecode; cases hdecode
  | succ fuel ih =>
    intro p history stored bits rest h hdecode hfits hfree
    obtain ⟨final, bits₁, blockType, bits₂, output, bits₃, hfinal, htype, hblock, hcases⟩ :=
      decodeBlocks_succ hdecode
    rcases hcases with ⟨rfl, rfl, rfl⟩ | ⟨hmore, hrest⟩
    · exact block_spec build h hfinal htype hblock hfits hfree
    · obtain ⟨first, rfl⟩ := decodeBlock_grows hblock
      obtain ⟨later, hlater⟩ := decodeBlocks_grows fuel hrest
      rw [List.append_assoc, List.append_cancel_left_eq] at hlater
      subst hlater
      rw [List.length_append] at hfits hfree
      obtain ⟨q, hreach, hq, hsame, hstep, hlast⟩ :=
        block_spec build h hfinal htype hblock (by omega) (by omega)
      have hbit : final < 2 ^ 1 := parseBits_lt (parseBits_eq_done.mpr hfinal)
      obtain ⟨r, hreach', hr, hsame', hend⟩ := ih ⟨hq, hstep, hlast.trans (by omega)⟩
        (by rwa [List.append_assoc]) (by rw [List.length_append]; omega) (by omega)
      rw [List.append_assoc] at hr
      exact ⟨r, hreach.trans hreach', hr, by rw [List.length_append]; omega, hend⟩

/-- Blocks none of which is the final one. -/
theorem openBlocks_spec (build : Build) {history output : List UInt8} {bits rest : List Bool}
    (hopen : OpenBlocks history bits output rest) :
    ∀ {p : InfPass} {stored : List UInt8}, AtBlock p history bits → output = history ++ stored →
      output.length ≤ infOutbufSize → stored.length ≤ p.free →
        ∃ q, Reaches (inflateStep build) p stored q ∧ AtBlock q output rest ∧
          q.free + stored.length = p.free := by
  induction hopen with
  | nil history bits =>
    intro p stored h hstored _ _
    obtain rfl := List.append_right_eq_self.mp hstored.symm
    exact ⟨p, .refl p, h, rfl⟩
  | @cons history middle output blockType _ _ _ _ _ hfinal htype hblock hrest ih =>
    intro p stored h hstored hfits hfree
    obtain ⟨first, rfl⟩ := decodeBlock_grows hblock
    obtain ⟨later, rfl⟩ := hrest.grows
    rw [List.append_assoc, List.append_cancel_left_eq] at hstored
    subst hstored
    rw [List.length_append] at hfree hfits
    rw [List.length_append] at hfits
    obtain ⟨q, hreach, hq, hsame, hstep, hlast⟩ :=
      block_spec build h hfinal htype hblock (by omega) (by omega)
    obtain ⟨r, hreach', hr, hsame'⟩ := ih ⟨hq, hstep, hlast⟩ rfl
      (by rw [List.length_append, List.length_append]; omega) (by omega)
    exact ⟨r, hreach.trans hreach', hr, by rw [List.length_append]; omega⟩

/-! ### The body of a stream -/

section Body

variable (build : Build) {p : InfPass} {history : List UInt8} {bits : List Bool}

/-- Behind the final block, the trailer is skipped and the loop ends. -/
theorem trailer_spec (h : At p history bits) (hstep : p.state.step = .processNextBlock)
    (hlast : p.state.isLastBlock ≠ 0) {trailer rest : List UInt8}
    (hinput : alignBits bits = bytesBits (trailer ++ rest)) (hlength : trailer.length = 4) :
    ∃ e, Runs (inflateStep build) p (.ok e) ∧ e.signal = .halt .streamEnd ∧ e.stored = [] ∧
      e.pass.input = rest ∧ e.pass.free = p.free ∧ e.pass.state.step = .end := by
  have hbytes : p.input = trailer ++ rest :=
    bytesBits_injective ((alignBits_of_faces h.faces).symm.trans hinput)
  have hmin : min 4 p.input.length = 4 := by
    rw [hbytes, List.length_append, hlength]
    omega
  have hnext : inflateStep build p = .ok ⟨withState p fun st ↦
      { st with isLastBlock := 4, step := .adler32Checksum }, [], .proceed⟩ := by
    simp only [inflateStep, hstep, passProcessNextBlock]
    rw [if_pos hlast]
    rfl
  generalize hq : (withState p fun st ↦
    { st with isLastBlock := 4, step := .adler32Checksum } : InfPass) = q at hnext
  have hskip : inflateStep build q = .ok ⟨withState { q with input := rest } fun st ↦
      { st with isLastBlock := 0, step := .end }, [], .proceed⟩ := by
    subst hq
    simp only [inflateStep, withState, passAdler32Checksum, hmin]
    rw [hbytes, List.drop_left' hlength]
    rfl
  refine ⟨⟨withState { q with input := rest } fun st ↦ { st with isLastBlock := 0, step := .end },
    [], .halt .streamEnd⟩, .next hnext rfl (.next hskip rfl (.stop rfl (by simp))), rfl, rfl, rfl, ?_,
    rfl⟩
  subst hq
  rfl

/-- From the start of a stream to its first block. -/
theorem start_spec (h : At p [] bits) (hstep : p.state.step = .start) :
    ∃ q, Reaches (inflateStep build) p [] q ∧ AtBlock q [] bits ∧ q.free = p.free := by
  have hstart : inflateStep build p = .ok ⟨withState p fun st ↦
      { st with isLastBlock := 0, step := .processNextBlock }, [], .proceed⟩ := by
    simp only [inflateStep, hstep]
    rfl
  exact ⟨_, Reaches.single hstart rfl, ⟨⟨h.faces, h.ring, h.fresh, h.statics⟩, rfl, rfl⟩, rfl⟩

/-- A body that ends with a final block and four bytes, whatever they are and whatever follows. -/
theorem closedBody_spec (h : At p [] (bytesBits p.input)) (hstep : p.state.step = .start)
    {fuel : ℕ} {output trailer more : List UInt8}
    (hblocks : decodeBlocks fuel [] (bytesBits p.input) = some (output, bits))
    (htrailer : takeBytes 4 (alignBits bits) = some (trailer, bytesBits more))
    (hfits : output.length ≤ infOutbufSize) (hfree : output.length ≤ p.free) :
    ∃ e, Runs (inflateStep build) p (.ok e) ∧ e.signal = .halt .streamEnd ∧ e.stored = output ∧
      e.pass.input = more ∧ e.pass.free + output.length = p.free ∧ e.pass.state.step = .end := by
  obtain ⟨p', hreach, hp', hsame⟩ := start_spec build h hstep
  obtain ⟨q, hreach', hq, hsame', hstep', hlast⟩ := @blocks_spec build fuel p' [] output _ _ hp'
    hblocks (by simpa using hfits) (by omega)
  have halign := alignBits_of_faces hq.faces
  rw [halign] at htrailer
  obtain ⟨rest, hinput, hlength, hrest⟩ := takeBytes_bytesBits htrailer
  obtain rfl : rest = more := bytesBits_injective hrest.symm
  rw [hinput] at halign
  obtain ⟨e, hruns, hsignal, hstored, hleft, hfree', hend⟩ := trailer_spec build hq hstep'
    (by rw [hlast]; decide) halign hlength
  refine ⟨e.after output, hreach.runs (hreach'.runs hruns), hsignal, ?_, hleft, ?_, hend⟩
  · rw [Effect.after_stored, hstored, List.append_nil]
  · rw [Effect.after_pass, hfree', hsame', hsame]

/-- A body that ends in front of a block. -/
theorem openBody_spec (h : At p [] (bytesBits p.input)) (hstep : p.state.step = .start)
    {output : List UInt8} (hopen : OpenBlocks [] (bytesBits p.input) output [])
    (hfits : output.length ≤ infOutbufSize) (hfree : output.length ≤ p.free) :
    ∃ e, Runs (inflateStep build) p (.ok e) ∧ e.signal = .needInput ∧ e.stored = output ∧
      e.pass.input = [] ∧ e.pass.free + output.length = p.free := by
  obtain ⟨p', hreach, hp', hsame⟩ := start_spec build h hstep
  obtain ⟨q, hreach', hq, hsame'⟩ := @openBlocks_spec build _ _ _ _ hopen p' output hp' rfl hfits
    (by omega)
  have hnext : inflateStep build q =
      .ok ⟨withState q fun st ↦ { st with step := .readBlockHeader }, [], .proceed⟩ := by
    simp only [inflateStep, hq.step, passProcessNextBlock, hq.notLast, ne_eq, not_true, if_false]
    rfl
  generalize hr : (withState q fun st ↦ { st with step := .readBlockHeader } : InfPass) = r at hnext
  have hfaces : (bitstreamOf r).Faces 7 [] := by subst hr; exact hq.faces
  have hstep' : r.state.step = .readBlockHeader := by subst hr; rfl
  obtain ⟨after, hread⟩ := hfaces.readBits_none (show 3 ≤ 25 by norm_num) rfl
  have hwait : inflateStep build r = .ok ⟨withBitstream r after, [], .needInput⟩ := by
    simp only [inflateStep, hstep', passReadBlockHeader, hread, reading]
  have hruns : Runs (inflateStep build) q (.ok ⟨withBitstream r after, [], .needInput⟩) :=
    .next hnext rfl (.stop hwait (by simp))
  have hnil : after.input = [] := hruns.input_nil (resumable_inflateStep build) _ rfl rfl
  refine ⟨_, hreach.runs (hreach'.runs hruns), rfl, List.append_nil output, hnil, ?_⟩
  · subst hr
    exact hsame'.trans hsame

end Body

/-! ### A whole stream -/

/-- A call that finds a header and some of the body behind it. -/
theorem inflate_headed {build : Build} {memory : Memory} {strm : ZStream} {st : InfState}
    (haction : st.action = .init) {flg : UInt8} {body : List UInt8} (hbody : body ≠ [])
    (hinput : memory.bytes strm.nextIn strm.availIn = 0x78 :: flg :: body) (hout : 0 < strm.availOut) :
    inflate build memory strm st =
      (runLoop build ⟨st.core, body, strm.availOut⟩).map
        (closeCall { strm with totalIn := 2, availIn := body.length }
          { st with inputPtr := strm.nextIn + 2, inputEnd := strm.nextIn + strm.availIn }
          (strm.nextIn + 2)) := by
  have hlength : strm.availIn = 2 + body.length := by
    rw [← Memory.length_bytes memory strm.nextIn strm.availIn, hinput, List.length_cons,
      List.length_cons]
    omega
  have hpos := List.length_pos_of_ne_nil hbody
  rw [hlength, Memory.bytes_add] at hinput
  obtain ⟨hfront, hbehind⟩ :
      memory.bytes strm.nextIn 2 = [0x78, flg] ∧ memory.bytes (strm.nextIn + 2) body.length = body :=
    List.append_inj hinput (by rw [Memory.length_bytes]; rfl)
  have hcmf : memory strm.nextIn = 0x78 := (List.cons.inj hfront).1
  simp only [inflate, haction, hcmf, decide_eq_true (show 0 < strm.availIn by omega),
    Build.assert_true, bind, Except.bind, ne_eq, not_true, if_false]
  rw [if_neg (by omega), if_neg (by omega), decodeBuffer_eq _ (by exact hout) (by simp only; omega),
    entryPass]
  simp only [show strm.nextIn + strm.availIn - (strm.nextIn + 2) = body.length by omega,
    show strm.availIn - 2 = body.length by omega, hbehind]

section Fresh

variable (build : Build) {statics : Statics} {memory : Memory} {strm : ZStream} {flg : UInt8}
  {body output : List UInt8}

/-- A call on a fresh inflater that finds a header and some of the body, once its run is known. -/
theorem inflate_fresh (heap : InfState) (hbody : body ≠ [])
    (hinput : memory.bytes strm.nextIn strm.availIn = 0x78 :: flg :: body)
    (hlength : strm.availIn < 2 ^ 32) (hout : 0 < strm.availOut) {e : InfEffect}
    (hruns : Runs (inflateStep build) ⟨(inflateInit statics heap).core, body, strm.availOut⟩
      (.ok e)) :
    ∃ r, inflate build memory strm (inflateInit statics heap) = .ok r ∧
      r.code = codeAfter e.signal ∧ r.stored = e.stored ∧
      r.strm.nextIn + e.pass.input.length = strm.nextIn + strm.availIn ∧
      r.strm.availIn = e.pass.input.length ∧ r.state.action = actionAfter e.signal ∧
      r.state.core = e.pass.state := by
  have hlive := (@Reachable.init build statics heap).live (by simp [inflateInit])
  have hrun : runLoop build ⟨(inflateInit statics heap).core, body, strm.availOut⟩ = .ok e :=
    (runs_runLoop build hlive).unique hruns
  have havail : strm.availIn = body.length + 2 := by
    rw [← Memory.length_bytes memory strm.nextIn strm.availIn, hinput, List.length_cons,
      List.length_cons]
  obtain ⟨used, hused : body = used ++ e.pass.input⟩ :=
    hruns.suffix (resumable_inflateStep build) e rfl
  have hleft := congrArg List.length hused
  rw [List.length_append] at hleft
  have hconsumed : unsignedSub (strm.nextIn + strm.availIn - e.pass.input.length) (strm.nextIn + 2) =
      used.length := by
    rw [unsignedSub_of_le (by omega) (by omega)]
    omega
  rw [inflate_headed rfl hbody hinput hout, hrun]
  refine ⟨_, rfl, rfl, rfl, ?_, ?_, rfl, rfl⟩
  · simp only [closeCall]
    omega
  · simp only [closeCall, hconsumed]
    rw [unsignedSub_of_le (by omega) (by omega)]
    omega

theorem at_fresh (hstatics : SoundStatics statics) (heap : InfState) (body : List UInt8) (free : ℕ) :
    At ⟨(inflateInit statics heap).core, body, free⟩ [] (bytesBits body) := by
  have hfresh := (@Reachable.init ⟨false, none⟩ statics heap).orderly.fresh (by
    rintro (h | h | h) <;> cases h)
  exact ⟨⟨rfl, Nat.one_pos, Nat.zero_le 7⟩, ringHolds_nil _, hfresh, hstatics⟩

/-- One call on a fresh inflater, with a stream that ends with a final block and four bytes. -/
theorem inflate_closed (hstatics : SoundStatics statics) (heap : InfState)
    (hinput : memory.bytes strm.nextIn strm.availIn = 0x78 :: flg :: body)
    (hlength : strm.availIn < 2 ^ 32) {fuel : ℕ} {bits : List Bool} {trailer more : List UInt8}
    (hblocks : decodeBlocks fuel [] (bytesBits body) = some (output, bits))
    (htrailer : takeBytes 4 (alignBits bits) = some (trailer, bytesBits more))
    (hfits : output.length ≤ infOutbufSize) (hpos : 0 < strm.availOut)
    (hout : output.length ≤ strm.availOut) :
    ∃ r, inflate build memory strm (inflateInit statics heap) = .ok r ∧ r.code = .streamEnd ∧
      r.stored = output ∧ r.strm.nextIn + more.length = strm.nextIn + strm.availIn ∧
      r.strm.availIn = more.length ∧ r.state.action = .init ∧ r.state.core.step = .end := by
  have hbody : body ≠ [] := by
    rintro rfl
    cases fuel <;> cases hblocks
  obtain ⟨e, hruns, hsignal, hstored, hleft, -, hend⟩ := closedBody_spec build
    (at_fresh hstatics heap body strm.availOut) rfl hblocks htrailer hfits hout
  obtain ⟨r, hr, hcode, hstored', hnext, havail, haction, hcore⟩ :=
    inflate_fresh build heap hbody hinput hlength hpos hruns
  rw [hleft] at hnext havail
  exact ⟨r, hr, by rw [hcode, hsignal]; rfl, hstored'.trans hstored, hnext, havail,
    by rw [haction, hsignal]; rfl, by rw [hcore, hend]⟩

/-- One call on a fresh inflater, with a stream that ends in front of a block. -/
theorem inflate_open (hstatics : SoundStatics statics) (heap : InfState)
    (hinput : memory.bytes strm.nextIn strm.availIn = 0x78 :: flg :: body)
    (hlength : strm.availIn < 2 ^ 32) (hbody : body ≠ [])
    (hopen : OpenBlocks [] (bytesBits body) output []) (hfits : output.length ≤ infOutbufSize)
    (hpos : 0 < strm.availOut) (hout : output.length ≤ strm.availOut) :
    ∃ r, inflate build memory strm (inflateInit statics heap) = .ok r ∧ r.code = .ok ∧
      r.stored = output ∧ r.strm.availIn = 0 := by
  obtain ⟨e, hruns, hsignal, hstored, hleft, -⟩ := openBody_spec build
    (at_fresh hstatics heap body strm.availOut) rfl hopen hfits hout
  obtain ⟨r, hr, hcode, hstored', -, havail, -⟩ :=
    inflate_fresh build heap hbody hinput hlength hpos hruns
  rw [hleft] at havail
  exact ⟨r, hr, by rw [hcode, hsignal]; rfl, hstored'.trans hstored, havail⟩

end Fresh

/-- One call on a fresh inflater, with a whole well-formed stream and room for its output, decodes
it. -/
theorem inflate_decodes (build : Build) {statics : Statics} (hstatics : SoundStatics statics)
    (heap : InfState) {memory : Memory} {strm : ZStream} {stream output : List UInt8}
    (hinput : memory.bytes strm.nextIn strm.availIn = stream) (hlength : strm.availIn < 2 ^ 32)
    (hdecode : decodeZlib stream = some output) (hfits : output.length ≤ infOutbufSize)
    (hpos : 0 < strm.availOut) (hout : output.length ≤ strm.availOut) :
    ∃ r, inflate build memory strm (inflateInit statics heap) = .ok r ∧ r.code = .streamEnd ∧
      r.stored = output ∧ r.strm.nextIn = strm.nextIn + strm.availIn ∧ r.strm.availIn = 0 := by
  obtain ⟨flg, body, rfl, hbody⟩ := decodeZlib_some hdecode
  obtain ⟨bits, trailer, hblocks, htrailer, -⟩ := decodeBody_some hbody
  have hbehind : takeBytes 4 (alignBits bits) = some (trailer, bytesBits []) := htrailer
  obtain ⟨r, hr, hcode, hstored, hnext, havail, -⟩ := inflate_closed build hstatics heap hinput
    hlength hblocks hbehind hfits hpos hout
  exact ⟨r, hr, hcode, hstored, hnext, havail⟩

/-- The stream of eight letters: two literals, and a match that runs into itself. -/
def overlapStream : List UInt8 :=
  [0x78, 0xDA, 0x4B, 0x4C, 0x4A, 0x04, 0x43, 0x00, 0x0D, 0xBC, 0x03, 0x0D]

theorem decodeZlib_overlapStream :
    decodeZlib overlapStream = some [97, 98, 97, 98, 97, 98, 97, 98] := by decide +kernel

theorem inflate_decodes_overlap : ∃ r,
    inflate ⟨false, none⟩ (memoryOf overlapStream) (streamOf 12 8) freshInflater = .ok r ∧
      r.code = .streamEnd ∧ r.stored = [97, 98, 97, 98, 97, 98, 97, 98] ∧
      r.strm.nextIn = (streamOf 12 8).nextIn + (streamOf 12 8).availIn ∧ r.strm.availIn = 0 := by
  have hinput : (memoryOf overlapStream).bytes (streamOf 12 8).nextIn (streamOf 12 8).availIn =
      overlapStream := by decide
  exact inflate_decodes ⟨false, none⟩ soundStatics_none zeroHeap hinput (by decide)
    decodeZlib_overlapStream (by decide) (by decide) (by decide)

end ZephyrThrift.Muzic
