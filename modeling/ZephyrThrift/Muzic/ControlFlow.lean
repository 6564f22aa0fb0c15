import ZephyrThrift.Muzic.Calls
import ZephyrThrift.Muzic.WindowRing

/-!
# What a pass can do

One pass of the inflater as a turn of a smaller machine, which sees neither the input nor the code
tables: a reader may hand out any number that its width allows, or find that the input is too short
(`Turn`). What holds of the fields that direct the loop, of the window ring and of the free space
throughout a run is derived from the turns by cases, and not from the passes.
-/

set_option autoImplicit false
set_option relaxedAutoImplicit false

namespace ZephyrThrift.Muzic

open Foundation

/-- The fields that direct the loop, the window ring, and the free space of the caller's window. -/
structure Control where
  step : InfStep
  isLastBlock : ℕ
  literal : ℕ
  sequenceLen : ℕ
  sequenceDist : ℕ
  outputBuf : InfOutbuf
  free : ℕ

def controlOf (p : InfPass) : Control :=
  ⟨p.state.step, p.state.isLastBlock, p.state.literal, p.state.sequenceLen, p.state.sequenceDist,
    p.state.outputBuf, p.free⟩

/-- The steps that need no more than a reader, and the steps behind them. -/
def loadsOf : InfStep → Option InfStep
  | .loadFixedHuffmanDecoders => some .processCompressedBlock
  | .loadDynamicHuffmanDecoders => some .loadFrontDecoder
  | .loadFrontDecoder => some .loadLiteralDecoder
  | .loadLiteralDecoder => some .loadDistanceDecoder
  | .loadDistanceDecoder => some .processCompressedBlock
  | _ => none

/-- What one pass does: its signal, the bytes it stores, and the fields behind it. -/
inductive Turn (build : Build) : Control → Signal BlockResult → List UInt8 → Control → Prop
  | waits (c : Control) : Turn build c .needInput [] c
  | start {c : Control} (h : c.step = .start) :
      Turn build c .proceed [] { c with step := .processNextBlock, isLastBlock := 0 }
  | lastBlock {c : Control} (h : c.step = .processNextBlock) (hlast : c.isLastBlock ≠ 0) :
      Turn build c .proceed [] { c with step := .adler32Checksum, isLastBlock := 4 }
  | nextBlock {c : Control} (h : c.step = .processNextBlock) (hmore : c.isLastBlock = 0) :
      Turn build c .proceed [] { c with step := .readBlockHeader }
  | blockHeader {c : Control} (h : c.step = .readBlockHeader) {final : ℕ} (hfinal : final ≤ 1)
      {next : InfStep} (hnext : next = .processUncompressedBlock ∨ next = .loadFixedHuffmanDecoders ∨
        next = .loadDynamicHuffmanDecoders) :
      Turn build c .proceed [] { c with step := next, isLastBlock := final }
  | reservedType {c : Control} (h : c.step = .readBlockHeader) {final : ℕ} (hfinal : final ≤ 1) :
      Turn build c (.halt (.dataError (some "invalid block type"))) []
        { c with step := .fatalError, isLastBlock := final }
  | storedLength {c : Control} (h : c.step = .processUncompressedBlock) {length : ℕ}
      (hlength : length < 2 ^ 16) :
      Turn build c .proceed [] { c with step := .outputUncompressedBlock, sequenceLen := length }
  | invalidLength {c : Control} (h : c.step = .processUncompressedBlock) {length : ℕ}
      (hlength : length < 2 ^ 16) :
      Turn build c (.halt (.dataError (some "invalid stored block lengths"))) []
        { c with step := .fatalError, sequenceLen := length }
  | storedPart {c : Control} (h : c.step = .outputUncompressedBlock) {bytes : List UInt8}
      {signal : Signal BlockResult} (hsignal :
        signal = .needInput ∧ bytes.length < min c.sequenceLen c.free ∨
        signal = .needOutput ∧ bytes.length = c.free ∧ c.free < c.sequenceLen) :
      Turn build c signal bytes { c with
        outputBuf := infOutbufWrite c.outputBuf bytes
        sequenceLen := c.sequenceLen - bytes.length
        free := c.free - bytes.length }
  | storedAll {c : Control} (h : c.step = .outputUncompressedBlock) {bytes : List UInt8}
      (hlength : bytes.length = c.sequenceLen) (hfits : c.sequenceLen ≤ c.free) :
      Turn build c .proceed bytes { c with
        step := .processNextBlock
        outputBuf := infOutbufWrite c.outputBuf bytes
        sequenceLen := c.sequenceLen - bytes.length
        free := c.free - bytes.length }
  | loads {c : Control} {next : InfStep} (h : loadsOf c.step = some next) :
      Turn build c .proceed [] { c with step := next }
  | symbol {c : Control} (h : c.step = .processCompressedBlock ∨ c.step = .readLiteralOrLength)
      (literal : ℕ) :
      Turn build c .proceed [] { c with step := .readLiteralOrLength2, literal := literal }
  | literalFull {c : Control} (h : c.step = .readLiteralOrLength2) (hliteral : c.literal < 256)
      (hfull : c.free = 0) : Turn build c .needOutput [] c
  | literal {c : Control} (h : c.step = .readLiteralOrLength2) (hliteral : c.literal < 256)
      (hroom : 0 < c.free) {outputBuf : InfOutbuf}
      (hput : infOutbufPutc build c.outputBuf (UInt8.ofNat c.literal) = .ok outputBuf) :
      Turn build c .proceed [UInt8.ofNat c.literal] { c with
        step := .readLiteralOrLength
        outputBuf := outputBuf
        free := c.free - 1 }
  | endOfBlock {c : Control} (h : c.step = .readLiteralOrLength2) (hend : c.literal = 256) :
      Turn build c .proceed [] { c with step := .processNextBlock }
  | invalidSymbol {c : Control} (h : c.step = .readLiteralOrLength2) (hlast : 285 < c.literal) :
      Turn build c (.halt (.dataError (some "too many length or distance symbols"))) []
        { c with step := .fatalError }
  | length {c : Control} (h : c.step = .readLiteralOrLength2) (hfirst : 256 < c.literal)
      (hlast : c.literal ≤ 285) :
      Turn build c .proceed [] { c with step := .readLengthBits, literal := c.literal - 257 }
  | lengthBits {c : Control} (h : c.step = .readLengthBits) {extraBits start temp : ℕ}
      (hextra : staticEntry lengthExtraBits c.literal = .ok extraBits)
      (hstart : staticEntry lengthStarts c.literal = .ok start) (htemp : temp < 2 ^ extraBits) :
      Turn build c .proceed [] { c with step := .readDistance, sequenceLen := temp + start }
  | distance {c : Control} (h : c.step = .readDistance) {literal : ℕ} (hliteral : literal ≤ 29) :
      Turn build c .proceed [] { c with step := .readDistanceBits, literal := literal }
  | invalidDistance {c : Control} (h : c.step = .readDistance) {literal : ℕ}
      (hliteral : 29 < literal) :
      Turn build c (.halt (.dataError (some "too many length or distance symbols"))) []
        { c with step := .fatalError, literal := literal }
  | distanceBits {c : Control} (h : c.step = .readDistanceBits) {extraBits start temp : ℕ}
      (hextra : staticEntry distanceExtraBits c.literal = .ok extraBits)
      (hstart : staticEntry distanceStarts c.literal = .ok start) (htemp : temp < 2 ^ extraBits) :
      Turn build c .proceed [] { c with step := .outputSequence, sequenceDist := temp + start }
  | copyFails {c : Control} (h : c.step = .outputSequence) {bytes : List UInt8}
      {outputBuf : InfOutbuf} (hread : infOutbufRead build c.outputBuf c.sequenceDist
        (min c.sequenceLen c.free) = .ok (false, bytes, outputBuf)) :
      Turn build c (.halt (.dataError none)) bytes { c with
        step := .fatalError
        outputBuf := outputBuf
        sequenceLen := c.sequenceLen - min c.sequenceLen c.free
        free := c.free - min c.sequenceLen c.free }
  | copyPart {c : Control} (h : c.step = .outputSequence) (hfull : c.free < c.sequenceLen)
      {bytes : List UInt8} {outputBuf : InfOutbuf} (hread : infOutbufRead build c.outputBuf
        c.sequenceDist (min c.sequenceLen c.free) = .ok (true, bytes, outputBuf)) :
      Turn build c .needOutput bytes { c with
        outputBuf := outputBuf
        sequenceLen := c.sequenceLen - min c.sequenceLen c.free
        free := c.free - min c.sequenceLen c.free }
  | copyAll {c : Control} (h : c.step = .outputSequence) (hfits : c.sequenceLen ≤ c.free)
      {bytes : List UInt8} {outputBuf : InfOutbuf} (hread : infOutbufRead build c.outputBuf
        c.sequenceDist (min c.sequenceLen c.free) = .ok (true, bytes, outputBuf)) :
      Turn build c .proceed bytes { c with
        step := .readLiteralOrLength
        outputBuf := outputBuf
        sequenceLen := c.sequenceLen - min c.sequenceLen c.free
        free := c.free - min c.sequenceLen c.free }
  | checksumPart {c : Control} (h : c.step = .adler32Checksum) {count : ℕ}
      (hcount : count < c.isLastBlock) :
      Turn build c .needInput [] { c with isLastBlock := c.isLastBlock - count }
  | checksumAll {c : Control} (h : c.step = .adler32Checksum) :
      Turn build c .proceed [] { c with step := .end, isLastBlock := 0 }
  | finished {c : Control} (h : c.step = .end) : Turn build c (.halt .streamEnd) [] c
  | broken {c : Control} (h : c.step = .fatalError) : Turn build c .proceed [] c

theorem InfBS.readBits_lt {count value : ℕ} {bitstream after : InfBS}
    (h : bitstream.readBits count = .ok (some value, after)) : value < 2 ^ count := by
  rw [readBits] at h
  split at h
  · cases h
  · cases h
  · cases h
    rw [Nat.one_shiftLeft, Nat.and_two_pow_sub_one_eq_mod]
    exact Nat.mod_lt _ (Nat.two_pow_pos count)

section Turns

variable {build : Build} {p : InfPass} {e : InfEffect}

theorem turn_readBlockHeader (hstep : p.state.step = .readBlockHeader)
    (hp : passReadBlockHeader p = .ok e) :
    Turn build (controlOf p) e.signal e.stored (controlOf e.pass) := by
  rcases reading_ok hp with ⟨after, -, rfl⟩ | ⟨temp, after, -, hnext⟩
  · exact .waits _
  · have hfinal : temp &&& 0x01 ≤ 1 := Nat.and_le_right
    split at hnext <;> cases hnext
    · exact .blockHeader hstep hfinal (.inl rfl)
    · exact .blockHeader hstep hfinal (.inr (.inl rfl))
    · exact .blockHeader hstep hfinal (.inr (.inr rfl))
    · exact .reservedType hstep hfinal

theorem turn_processUncompressedBlock (hstep : p.state.step = .processUncompressedBlock)
    (hp : passProcessUncompressedBlock build p = .ok e) :
    Turn build (controlOf p) e.signal e.stored (controlOf e.pass) := by
  rcases reading_ok hp with ⟨after, -, rfl⟩ | ⟨temp, after, -, hnext⟩
  · exact .waits _
  · have hlength : temp &&& 0xFFFF < 2 ^ 16 := Nat.lt_succ_of_le Nat.and_le_right
    simp only at hnext
    split at hnext <;> cases hnext
    · exact .invalidLength hstep hlength
    · exact .storedLength hstep hlength

theorem turn_outputUncompressedBlock (hstep : p.state.step = .outputUncompressedBlock)
    (hp : passOutputUncompressedBlock build p = .ok e) :
    Turn build (controlOf p) e.signal e.stored (controlOf e.pass) := by
  obtain ⟨st, input, free⟩ := p
  have htake : (input.take (min st.sequenceLen free)).length =
      min (min st.sequenceLen free) input.length := List.length_take
  rw [passOutputUncompressedBlock_eq] at hp
  split at hp
  · cases hp
  · simp only at hp
    split at hp
    · next hshort =>
      cases hp
      exact .storedPart hstep (.inl ⟨rfl, by simp only [controlOf]; omega⟩)
    · split at hp
      · next hfull =>
        cases hp
        exact .storedPart hstep
          (.inr ⟨rfl, by simp only [controlOf]; omega, by simp only [controlOf]; omega⟩)
      · cases hp
        exact .storedAll hstep (by simp only [controlOf]; omega) (by simp only [controlOf]; omega)

theorem turn_readLiteralOrLength2 (hstep : p.state.step = .readLiteralOrLength2)
    (hp : passReadLiteralOrLength2 build p = .ok e) :
    Turn build (controlOf p) e.signal e.stored (controlOf e.pass) := by
  obtain ⟨st, input, free⟩ := p
  rw [passReadLiteralOrLength2_eq] at hp
  split at hp
  · next hliteral =>
    split at hp
    · next hfull =>
      cases hp
      exact .literalFull hstep hliteral hfull
    · next hroom =>
      split at hp
      · cases hp
      · next hput =>
        cases hp
        exact .literal hstep hliteral (Nat.pos_of_ne_zero hroom) hput
  · next hliteral =>
    split at hp
    · next hend =>
      cases hp
      exact .endOfBlock hstep hend
    · next hend =>
      split at hp
      · next hlast =>
        cases hp
        exact .invalidSymbol hstep hlast
      · next hlast =>
        cases hp
        exact .length hstep (by simp only [controlOf]; omega) (by simp only [controlOf]; omega)

theorem turn_outputSequence (hstep : p.state.step = .outputSequence)
    (hp : passOutputSequence build p = .ok e) :
    Turn build (controlOf p) e.signal e.stored (controlOf e.pass) := by
  obtain ⟨st, input, free⟩ := p
  rw [passOutputSequence_eq] at hp
  split at hp
  · cases hp
  · next succ bytes outputBuf hread =>
    simp only at hp
    split at hp
    · next hfails =>
      cases hp
      subst hfails
      exact .copyFails hstep hread
    · next hsucc =>
      rw [Bool.not_eq_false] at hsucc
      subst hsucc
      split at hp
      · next hfits =>
        cases hp
        exact .copyAll hstep hfits hread
      · next hfull =>
        cases hp
        exact .copyPart hstep (not_le.mp hfull) hread

/-- Every pass is a turn. -/
theorem turn_inflateStep (hp : inflateStep build p = .ok e) :
    Turn build (controlOf p) e.signal e.stored (controlOf e.pass) := by
  have hloads : ∀ {step next : InfStep}, p.state.step = step → loadsOf step = some next →
      loadsOf (controlOf p).step = some next := fun hstep hnext ↦ by
    rw [← hnext, ← hstep]
    rfl
  rw [inflateStep_eq] at hp
  cases hstep : p.state.step <;> simp only [hstep, passOf] at hp
  case start => cases hp; exact .start hstep
  case processNextBlock =>
    rw [passProcessNextBlock] at hp
    split at hp
    · next hlast => cases hp; exact .lastBlock hstep hlast
    · next hmore => cases hp; exact .nextBlock hstep (not_not.mp hmore)
  case readBlockHeader => exact turn_readBlockHeader hstep hp
  case processUncompressedBlock => exact turn_processUncompressedBlock hstep hp
  case outputUncompressedBlock => exact turn_outputUncompressedBlock hstep hp
  case loadFixedHuffmanDecoders =>
    obtain ⟨_, _, hp⟩ := bind_ok hp
    obtain ⟨_, _, hp⟩ := bind_ok hp
    cases hp
    exact .loads (hloads hstep rfl)
  case loadDynamicHuffmanDecoders =>
    rcases reading_ok hp with ⟨after, -, rfl⟩ | ⟨symcount, after, -, hnext⟩
    · exact .waits _
    · cases hnext
      exact .loads (hloads hstep rfl)
  case loadFrontDecoder =>
    rcases listing_ok hp with ⟨list, after, -, rfl⟩ | ⟨list, after, -, hnext⟩
    · exact .waits _
    · obtain ⟨_, _, hnext⟩ := bind_ok hnext
      obtain ⟨_, _, hnext⟩ := bind_ok hnext
      cases hnext
      exact .loads (hloads hstep rfl)
  case loadLiteralDecoder | loadDistanceDecoder =>
    obtain ⟨_, _, hp⟩ := bind_ok hp
    rcases listing_ok hp with ⟨list, after, -, rfl⟩ | ⟨list, after, -, hnext⟩
    · exact .waits _
    · obtain ⟨_, _, hnext⟩ := bind_ok hnext
      obtain ⟨_, _, hnext⟩ := bind_ok hnext
      cases hnext
      exact .loads (hloads hstep rfl)
  case processCompressedBlock =>
    obtain ⟨_, _, hp⟩ := bind_ok hp
    rcases reading_ok hp with ⟨after, -, rfl⟩ | ⟨literal, after, -, hnext⟩
    · exact .waits _
    · cases hnext
      exact .symbol (.inl hstep) literal
  case readLiteralOrLength =>
    obtain ⟨_, _, hp⟩ := bind_ok hp
    rcases reading_ok hp with ⟨after, -, rfl⟩ | ⟨literal, after, -, hnext⟩
    · exact .waits _
    · cases hnext
      exact .symbol (.inr hstep) literal
  case readLiteralOrLength2 => exact turn_readLiteralOrLength2 hstep hp
  case readLengthBits =>
    obtain ⟨extraBits, hextra, hp⟩ := bind_ok hp
    obtain ⟨start, hstart, hp⟩ := bind_ok hp
    rcases reading_ok hp with ⟨after, -, rfl⟩ | ⟨temp, after, hread, hnext⟩
    · exact .waits _
    · obtain ⟨_, _, hnext⟩ := bind_ok hnext
      cases hnext
      exact .lengthBits hstep hextra hstart (InfBS.readBits_lt hread)
  case readDistance =>
    obtain ⟨_, _, hp⟩ := bind_ok hp
    rcases reading_ok hp with ⟨after, -, rfl⟩ | ⟨literal, after, -, hnext⟩
    · exact .waits _
    · simp only at hnext
      split at hnext
      · next hlast => cases hnext; exact .invalidDistance hstep hlast
      · next hlast => cases hnext; exact .distance hstep (not_lt.mp hlast)
  case readDistanceBits =>
    obtain ⟨extraBits, hextra, hp⟩ := bind_ok hp
    obtain ⟨start, hstart, hp⟩ := bind_ok hp
    rcases reading_ok hp with ⟨after, -, rfl⟩ | ⟨temp, after, hread, hnext⟩
    · exact .waits _
    · obtain ⟨_, _, hnext⟩ := bind_ok hnext
      cases hnext
      exact .distanceBits hstep hextra hstart (InfBS.readBits_lt hread)
  case outputSequence => exact turn_outputSequence hstep hp
  case fatalError => cases hp; exact .broken hstep
  case adler32Checksum =>
    obtain ⟨st, input, free⟩ := p
    rw [passAdler32Checksum_eq] at hp
    split at hp
    · cases hp
      exact .checksumAll hstep
    · next hshort =>
      cases hp
      exact .checksumPart hstep (not_le.mp hshort)
  case «end» => cases hp; exact .finished hstep

end Turns

/-! ### What a read of the window leaves -/

section Reads

variable {build : Build} {infbuf infbuf' : InfOutbuf} {distance count : ℕ} {bytes : List UInt8}

theorem infOutbufRead_length {succ : Bool} (h : infbuf.ptr ≤ infOutbufSize)
    (hread : infOutbufRead build infbuf distance count = .ok (succ, bytes, infbuf')) :
    bytes.length ≤ count ∧ (succ = true → bytes.length = count) := by
  have hring : ∀ offset count, (ringBytes infbuf offset count).length = count := fun offset count ↦ by
    rw [ringBytes, List.length_map, List.length_range]
  rw [infOutbufRead] at hread
  split at hread
  · split at hread
    · cases hread
    simp only at hread
    split at hread
    · cases hread
      rw [hring]
      exact ⟨le_rfl, fun _ ↦ rfl⟩
    next hcrosses =>
    split at hread
    · cases hread
      rw [hring]
      exact ⟨by omega, by simp⟩
    split at hread
    · cases hread
    · next hcopy =>
      cases hread
      have hlength := (copyLoop_ptr_le _ (infOutbufWrite_ptr_le h _) hcopy).1
      rw [List.length_append, hring, hlength]
      omega
  · split at hread
    · cases hread
    · next hcopy =>
      cases hread
      have hlength := (copyLoop_ptr_le _ h hcopy).1
      exact ⟨hlength.le, fun _ ↦ hlength⟩

/-- A read stores in the ring what it stores for the caller, also where it fails half-way. -/
theorem infOutbufRead_stored {succ : Bool} (h : infbuf.ptr ≤ infOutbufSize)
    (hread : infOutbufRead build infbuf distance count = .ok (succ, bytes, infbuf')) :
    infbuf' = bytes.foldl ringPut infbuf := by
  cases succ with
  | true => exact infOutbufRead_stores h hread
  | false =>
    rw [infOutbufRead] at hread
    split at hread
    · split at hread
      · cases hread
      simp only at hread
      split at hread
      · cases hread
      split at hread
      · cases hread
        exact infOutbufWrite_eq _ _
      · split at hread <;> cases hread
    · split at hread <;> cases hread

theorem foldl_ringPut_ptr_le (bytes : List UInt8) : ∀ infbuf : InfOutbuf,
    (bytes.foldl ringPut infbuf).ptr ≤ infbuf.ptr + bytes.length := by
  induction bytes with
  | nil => exact fun infbuf ↦ le_rfl
  | cons byte bytes ih =>
    intro infbuf
    have hrest := ih (ringPut infbuf byte)
    have hfirst : (ringPut infbuf byte).ptr ≤ infbuf.ptr + 1 := by
      simp only [ringPut]
      split <;> omega
    rw [List.foldl_cons, List.length_cons]
    omega

end Reads

/-! ### Where every turn goes -/

/-- The steps that a pass can proceed to. -/
def nextSteps : InfStep → List InfStep
  | .start => [.processNextBlock]
  | .processNextBlock => [.adler32Checksum, .readBlockHeader]
  | .readBlockHeader =>
    [.processUncompressedBlock, .loadFixedHuffmanDecoders, .loadDynamicHuffmanDecoders]
  | .processUncompressedBlock => [.outputUncompressedBlock]
  | .outputUncompressedBlock => [.processNextBlock]
  | .loadFixedHuffmanDecoders => [.processCompressedBlock]
  | .loadDynamicHuffmanDecoders => [.loadFrontDecoder]
  | .loadFrontDecoder => [.loadLiteralDecoder]
  | .loadLiteralDecoder => [.loadDistanceDecoder]
  | .loadDistanceDecoder => [.processCompressedBlock]
  | .processCompressedBlock => [.readLiteralOrLength2]
  | .readLiteralOrLength => [.readLiteralOrLength2]
  | .readLiteralOrLength2 => [.readLiteralOrLength, .processNextBlock, .readLengthBits]
  | .readLengthBits => [.readDistance]
  | .readDistance => [.readDistanceBits]
  | .readDistanceBits => [.outputSequence]
  | .outputSequence => [.readLiteralOrLength]
  | .fatalError => [.fatalError]
  | .adler32Checksum => [.end]
  | .end => []

theorem Turn.nextStep {build : Build} {c c' : Control} {stored : List UInt8}
    (h : Turn build c .proceed stored c') : c'.step ∈ nextSteps c.step := by
  generalize hsignal : (Signal.proceed : Signal BlockResult) = signal at h
  cases h with
  | storedPart _ hshort => rcases hshort with ⟨rfl, -⟩ | ⟨rfl, -, -⟩ <;> cases hsignal
  | loads hloads =>
    revert hloads
    cases c.step <;> intro hloads <;> cases hloads <;> simp [nextSteps]
  | blockHeader hstep _ hblock =>
    rw [hstep]
    rcases hblock with rfl | rfl | rfl <;> simp [nextSteps]
  | symbol hstep => rcases hstep with hstep | hstep <;> simp [nextSteps, hstep]
  | start hstep | lastBlock hstep | nextBlock hstep | storedLength hstep | storedAll hstep
  | literal hstep | endOfBlock hstep | length hstep | lengthBits hstep | distance hstep
  | distanceBits hstep | copyAll hstep | checksumAll hstep | broken hstep =>
    simp [nextSteps, hstep]
  | _ => cases hsignal

/-! ### What every turn keeps -/

/-- The ranges of the numbers that the later steps look up and copy by. -/
structure InRange (c : Control) : Prop where
  lengthSymbol : c.step = .readLengthBits → c.literal < 29
  distanceSymbol : c.step = .readDistanceBits → c.literal < 30
  length : c.step = .readDistance ∨ c.step = .readDistanceBits ∨ c.step = .outputSequence →
    0 < c.sequenceLen ∧ c.sequenceLen ≤ 258
  distance : c.step = .outputSequence → 0 < c.sequenceDist ∧ c.sequenceDist ≤ infOutbufSize
  ptr : c.outputBuf.ptr ≤ infOutbufSize

/-- The steps with no demands. -/
theorem InRange.of_step {c : Control} (hstep : c.step ∉ [.readLengthBits, .readDistance,
    .readDistanceBits, .outputSequence]) (hptr : c.outputBuf.ptr ≤ infOutbufSize) : InRange c := by
  simp only [List.mem_cons, List.not_mem_nil, or_false, not_or] at hstep
  obtain ⟨hlength, hdistance, hbits, hmatch⟩ := hstep
  exact ⟨fun h ↦ absurd h hlength, fun h ↦ absurd h hbits,
    fun h ↦ by rcases h with h | h | h <;> contradiction, fun h ↦ absurd h hmatch, hptr⟩

/-- The lengths that the format can encode. -/
theorem lengths_le : ∀ symbol < 29, ∀ extraBits start,
    staticEntry lengthExtraBits symbol = .ok extraBits → staticEntry lengthStarts symbol = .ok start →
      0 < start ∧ 2 ^ extraBits + start ≤ 259 := by
  intro symbol hsymbol extraBits start hextra hstart
  interval_cases symbol <;> cases hextra <;> cases hstart <;> decide

/-- The distances that the format can encode. -/
theorem distances_le : ∀ symbol < 30, ∀ extraBits start,
    staticEntry distanceExtraBits symbol = .ok extraBits →
      staticEntry distanceStarts symbol = .ok start →
        0 < start ∧ 2 ^ extraBits + start ≤ infOutbufSize + 1 := by
  intro symbol hsymbol extraBits start hextra hstart
  interval_cases symbol <;> cases hextra <;> cases hstart <;> decide

section Kept

variable {build : Build} {c c' : Control} {signal : Signal BlockResult} {stored : List UInt8}

/-- The ring takes what the caller's window takes. -/
theorem Turn.outputBuf (h : Turn build c signal stored c') (hptr : c.outputBuf.ptr ≤ infOutbufSize) :
    c'.outputBuf = stored.foldl ringPut c.outputBuf := by
  cases h with
  | storedPart | storedAll => exact infOutbufWrite_eq _ _
  | literal _ _ _ hput =>
    rw [infOutbufPutc_eq build hptr] at hput
    injection hput with hput
    exact hput.symm
  | copyFails _ hread | copyPart _ _ hread | copyAll _ _ hread =>
    exact infOutbufRead_stored hptr hread
  | _ => rfl

/-- The free space is accounted for, unless the turn ends in an error, and a turn that asks for space
has filled the window. -/
theorem Turn.free (h : Turn build c signal stored c') (hptr : c.outputBuf.ptr ≤ infOutbufSize)
    (hsound : ∀ msg, signal ≠ .halt (.dataError msg)) :
    c'.free + stored.length = c.free ∧ (signal = .needOutput → c'.free = 0) := by
  cases h with
  | storedPart _ hsignal =>
    simp only
    rcases hsignal with ⟨rfl, hlength⟩ | ⟨rfl, hlength, -⟩
    · exact ⟨by omega, nofun⟩
    · exact ⟨by omega, fun _ ↦ by omega⟩
  | storedAll _ hlength hfits => exact ⟨by simp only; omega, nofun⟩
  | literal _ _ hroom _ => exact ⟨by simp only [List.length_singleton]; omega, nofun⟩
  | literalFull _ _ hfull => exact ⟨rfl, fun _ ↦ hfull⟩
  | copyFails => exact absurd rfl (hsound _)
  | copyPart _ hfull hread =>
    have hlength := (infOutbufRead_length hptr hread).2 rfl
    exact ⟨by simp only; omega, fun _ ↦ by simp only; omega⟩
  | copyAll _ hfits hread =>
    have hlength := (infOutbufRead_length hptr hread).2 rfl
    exact ⟨by simp only; omega, nofun⟩
  | _ => exact ⟨rfl, nofun⟩

theorem InRange.turn (h : InRange c) (hturn : Turn build c signal stored c') : InRange c' := by
  have hptr : c'.outputBuf.ptr ≤ infOutbufSize := by
    rw [hturn.outputBuf h.ptr, ← infOutbufWrite_eq]
    exact infOutbufWrite_ptr_le h.ptr stored
  cases hturn with
  | waits | literalFull | finished | broken => exact h
  | start | lastBlock | nextBlock | reservedType | storedLength | invalidLength | storedAll | symbol
  | literal | endOfBlock | invalidSymbol | invalidDistance | copyFails | copyAll | checksumAll =>
    exact .of_step (by simp) hptr
  | blockHeader _ _ hnext => rcases hnext with rfl | rfl | rfl <;> exact .of_step (by simp) hptr
  | storedPart hstep | checksumPart hstep => exact .of_step (by simp [hstep]) hptr
  | loads hnext =>
    revert hnext
    cases hstep : c.step <;> intro hnext <;> cases hnext <;> exact .of_step (by simp) hptr
  | length _ hfirst hlast =>
    exact ⟨fun _ ↦ by simp only; omega, nofun, by simp, nofun, hptr⟩
  | lengthBits hstep hextra hstart htemp =>
    obtain ⟨hpos, hle⟩ := lengths_le _ (h.lengthSymbol hstep) _ _ hextra hstart
    exact ⟨nofun, nofun, fun _ ↦ by simp only; omega, nofun, hptr⟩
  | distance hstep hliteral =>
    exact ⟨nofun, fun _ ↦ by simp only; omega, fun _ ↦ h.length (.inl hstep), nofun, hptr⟩
  | distanceBits hstep hextra hstart htemp =>
    obtain ⟨hpos, hle⟩ := distances_le _ (h.distanceSymbol hstep) _ _ hextra hstart
    exact ⟨nofun, nofun, fun _ ↦ h.length (.inr (.inl hstep)), fun _ ↦ by simp only; omega, hptr⟩
  | copyPart hstep hfull _ =>
    obtain ⟨hpos, hle⟩ := h.length (.inr (.inr hstep))
    exact ⟨by simp [hstep], by simp [hstep], fun _ ↦ by simp only; omega, fun _ ↦ h.distance hstep,
      hptr⟩

end Kept

end ZephyrThrift.Muzic
