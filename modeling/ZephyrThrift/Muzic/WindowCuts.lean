import ZephyrThrift.Muzic.Progress

/-!
# Passes and the window of the caller

Most passes do not look at the window of the caller at all (`Thrifty`). A pass that does not ask for
space does the same in front of a wider window.
-/

set_option autoImplicit false
set_option relaxedAutoImplicit false

namespace ZephyrThrift.Muzic

open Foundation

/-! ### Passes that do not look at the window -/

/-- A part of a pass that neither looks at the free space nor changes it. -/
def Thrifty (f : InfPass → Except Fault InfEffect) : Prop :=
  ∀ p extra, f (p.widen extra) = (f p).map fun e ↦ e.widen extra

theorem thrifty_goto (step : InfStep) : Thrifty fun p ↦ goto p step := fun _ _ ↦ rfl

theorem thrifty_fatal (msg : Option String) : Thrifty fun p ↦ fatal p [] msg := fun _ _ ↦ rfl

theorem Thrifty.withState {f : InfPass → Except Fault InfEffect} (h : Thrifty f)
    (change : InfCore → InfCore) : Thrifty fun p ↦ f (withState p change) :=
  fun p extra ↦ h (Muzic.withState p change) extra

theorem Thrifty.bind {α : Type} {f : α → InfPass → Except Fault InfEffect}
    (h : ∀ a, Thrifty (f a)) (compute : InfCore → Except Fault α) :
    Thrifty fun p ↦ compute p.state >>= fun a ↦ f a p := by
  intro p extra
  show (compute p.state >>= fun a ↦ f a (p.widen extra)) =
    (compute p.state >>= fun a ↦ f a p).map _
  cases compute p.state with
  | error fault => rfl
  | ok a => exact h a p extra

theorem Thrifty.ite {f g : InfPass → Except Fault InfEffect} (hf : Thrifty f) (hg : Thrifty g)
    (condition : InfCore → Prop) [DecidablePred condition] :
    Thrifty fun p ↦ if condition p.state then f p else g p := by
  intro p extra
  show (if condition p.state then f (p.widen extra) else g (p.widen extra)) =
    (if condition p.state then f p else g p).map _
  by_cases hp : condition p.state
  · rw [if_pos hp, if_pos hp]
    exact hf p extra
  · rw [if_neg hp, if_neg hp]
    exact hg p extra

theorem Thrifty.reading {α : Type} (read : InfBS → Except Fault (Option α × InfBS))
    {next : α → InfPass → Except Fault InfEffect} (hnext : ∀ a, Thrifty (next a)) :
    Thrifty fun p ↦ reading p (read (bitstreamOf p)) next := by
  intro p extra
  show Muzic.reading (p.widen extra) (read (bitstreamOf p)) next =
    (Muzic.reading p (read (bitstreamOf p)) next).map _
  rcases read (bitstreamOf p) with fault | ⟨_ | value, after⟩
  · rfl
  · rfl
  · exact hnext value (withBitstream p after) extra

theorem Thrifty.listing (read : InfCore → InfBS → Except Fault (Bool × InfSLList × InfBS))
    {next : InfPass → Except Fault InfEffect} (hnext : Thrifty next) :
    Thrifty fun p ↦ listing p (read p.state (bitstreamOf p)) next := by
  intro p extra
  show Muzic.listing (p.widen extra) (read p.state (bitstreamOf p)) next =
    (Muzic.listing p (read p.state (bitstreamOf p)) next).map _
  rcases read p.state (bitstreamOf p) with fault | ⟨_ | _, list, after⟩
  · rfl
  · rfl
  · exact hnext (Muzic.withState (withBitstream p after) fun st ↦ { st with sllist := list }) extra

section Cases

variable (build : Build)

theorem thrifty_passReadBlockHeader : Thrifty passReadBlockHeader := by
  refine Thrifty.reading (InfBS.readBits 3) fun temp ↦ ?_
  generalize temp >>> 1 = blockType
  rcases blockType with _ | _ | _ | _
  · exact (thrifty_goto _).withState _
  · exact (thrifty_goto _).withState _
  · exact (thrifty_goto _).withState _
  · exact (thrifty_fatal _).withState _

theorem thrifty_passLoadFixedHuffmanDecoders : Thrifty (passLoadFixedHuffmanDecoders build) := by
  intro p extra
  simp only [passLoadFixedHuffmanDecoders, Pass.widen]
  cases infHuffMakeFixedLiteralDecoder build p.state.statics.cachedLiteral p.state.sllist with
  | error fault => rfl
  | ok literal =>
    simp only [bind, Except.bind]
    cases infHuffMakeFixedDistanceDecoder build p.state.statics.cachedDistance literal.2 <;> rfl

theorem thrifty_makeDecoder (resetRepetitions : Bool) (table : InfCore → HuffTable)
    (store : InfSLList → HuffTable → InfCore → InfCore) (next : InfStep) :
    Thrifty (fun p ↦ do
      let (sorted, list) ← infSLListGetSorted p.state.sllist resetRepetitions
      let made ← infHuffMakeDecoder build (table p.state) sorted
      goto (withState p (store list made)) next) := by
  intro p extra
  simp only [Pass.widen]
  cases infSLListGetSorted p.state.sllist resetRepetitions with
  | error fault => rfl
  | ok sorted =>
    simp only [bind, Except.bind]
    cases infHuffMakeDecoder build (table p.state) sorted.1 <;> rfl

/-- The steps that store output. -/
def InfStep.stores : InfStep → Bool
  | .outputUncompressedBlock => true
  | .readLiteralOrLength2 => true
  | .outputSequence => true
  | _ => false

theorem thrifty_passOf {step : InfStep} (hstep : step.stores = false) :
    Thrifty (passOf build step) := by
  cases step with
  | start => exact (thrifty_goto _).withState _
  | processNextBlock =>
    exact ((thrifty_goto _).withState _).ite (thrifty_goto _) fun st ↦ st.isLastBlock ≠ 0
  | readBlockHeader => exact thrifty_passReadBlockHeader
  | processUncompressedBlock =>
    exact Thrifty.reading (InfBS.readDWord build) fun temp ↦
      ((thrifty_fatal _).ite (thrifty_goto _)
        fun st ↦ st.sequenceLen ≠ (2 ^ 32 - 1 - temp) >>> 16).withState _
  | outputUncompressedBlock => cases hstep
  | loadFixedHuffmanDecoders => exact thrifty_passLoadFixedHuffmanDecoders build
  | loadDynamicHuffmanDecoders =>
    exact Thrifty.reading (InfBS.readBits (5 + 5 + 4)) fun _ ↦ (thrifty_goto _).withState _
  | loadFrontDecoder =>
    exact Thrifty.listing (fun st bitstream ↦
        infSLListAdd3BitSymlens build st.sllist bitstream (((st.symcount >>> 10) &&& 0x0F) + 4))
      (thrifty_makeDecoder build true InfCore.huffmanTableA (fun list table st ↦
        { st with sllist := list, huffmanTableA := table, frontDecoder := some .huffmanTableA }) _)
  | loadLiteralDecoder =>
    exact Thrifty.bind (f := fun decoder p ↦ listing p _ _)
      (fun decoder ↦ Thrifty.listing (fun st bitstream ↦
        infSLListAddEncodedSymlens build st.sllist bitstream ((st.symcount &&& 0x1F) + 257) decoder)
      (thrifty_makeDecoder build false InfCore.huffmanTableB (fun list table st ↦
        { st with sllist := list, huffmanTableB := table, literalDecoder := some .huffmanTableB }) _))
      fun st ↦ st.decoder st.frontDecoder
  | loadDistanceDecoder =>
    exact Thrifty.bind (f := fun decoder p ↦ listing p _ _)
      (fun decoder ↦ Thrifty.listing (fun st bitstream ↦
        infSLListAddEncodedSymlens build st.sllist bitstream (((st.symcount >>> 5) &&& 0x1F) + 1)
          decoder)
      (thrifty_makeDecoder build true InfCore.huffmanTableA (fun list table st ↦
        { st with sllist := list, huffmanTableA := table, distanceDecoder := some .huffmanTableA }) _))
      fun st ↦ st.decoder st.frontDecoder
  | processCompressedBlock =>
    exact Thrifty.bind (fun decoder ↦ Thrifty.reading (InfBS.readEncodedBits decoder)
      fun _ ↦ (thrifty_goto _).withState _) fun st ↦ st.decoder st.literalDecoder
  | readLiteralOrLength =>
    exact Thrifty.bind (fun decoder ↦ Thrifty.reading (InfBS.readEncodedBits decoder)
      fun _ ↦ (thrifty_goto _).withState _) fun st ↦ st.decoder st.literalDecoder
  | readLiteralOrLength2 => cases hstep
  | readLengthBits =>
    exact Thrifty.bind (fun extraBits ↦ Thrifty.bind (fun start ↦
      Thrifty.reading (InfBS.readBits extraBits) fun temp ↦
        Thrifty.bind (fun _ ↦ (thrifty_goto _).withState _) fun _ ↦ build.assert _)
      fun st ↦ staticEntry lengthStarts st.literal) fun st ↦ staticEntry lengthExtraBits st.literal
  | readDistance =>
    exact Thrifty.bind (fun decoder ↦ Thrifty.reading (InfBS.readEncodedBits decoder)
      fun _ ↦ ((thrifty_fatal _).ite (thrifty_goto _) fun st ↦ 29 < st.literal).withState _)
      fun st ↦ st.decoder st.distanceDecoder
  | readDistanceBits =>
    exact Thrifty.bind (fun extraBits ↦ Thrifty.bind (fun start ↦
      Thrifty.reading (InfBS.readBits extraBits) fun temp ↦
        Thrifty.bind (fun _ ↦ (thrifty_goto _).withState _) fun _ ↦ build.assert _)
      fun st ↦ staticEntry distanceStarts st.literal)
      fun st ↦ staticEntry distanceExtraBits st.literal
  | outputSequence => cases hstep
  | fatalError => exact fun _ _ ↦ rfl
  | adler32Checksum =>
    rintro ⟨st, input, free⟩ extra
    simp only [passOf, Pass.widen]
    rw [passAdler32Checksum_eq, passAdler32Checksum_eq]
    split <;> rfl
  | «end» => exact fun _ _ ↦ rfl

/-! ### Passes that store output -/

theorem passReadLiteralOrLength2_eq (st : InfCore) (input : List UInt8) (free : ℕ) :
    passReadLiteralOrLength2 build ⟨st, input, free⟩ =
      if st.literal < 256 then
        if free = 0 then .ok ⟨⟨st, input, free⟩, [], .needOutput⟩
        else
          match infOutbufPutc build st.outputBuf (UInt8.ofNat st.literal) with
          | .error fault => .error fault
          | .ok outputBuf =>
            .ok ⟨⟨{ st with outputBuf := outputBuf, step := .readLiteralOrLength }, input, free - 1⟩,
              [UInt8.ofNat st.literal], .proceed⟩
      else if st.literal = 256 then
        .ok ⟨⟨{ st with step := .processNextBlock }, input, free⟩, [], .proceed⟩
      else if 285 < st.literal then
        .ok ⟨⟨{ st with step := .fatalError }, input, free⟩, [],
          .halt (.dataError (some "too many length or distance symbols"))⟩
      else .ok ⟨⟨{ st with literal := st.literal - 257, step := .readLengthBits }, input, free⟩, [],
        .proceed⟩ := by
  by_cases hliteral : st.literal < 256
  · exact (if_pos hliteral).trans (if_pos hliteral).symm
  by_cases hend : st.literal = 256
  · exact ((if_neg hliteral).trans (if_pos hend)).trans ((if_neg hliteral).trans (if_pos hend)).symm
  by_cases hlast : 285 < st.literal
  · exact ((if_neg hliteral).trans ((if_neg hend).trans (if_pos hlast))).trans
      ((if_neg hliteral).trans ((if_neg hend).trans (if_pos hlast))).symm
  · simp only [passReadLiteralOrLength2, goto, withState, if_neg hliteral, if_neg hend,
      if_neg hlast]

theorem roomy_outputUncompressedBlock (st : InfCore) (input : List UInt8) (free extra : ℕ)
    {e : InfEffect} (hp : passOutputUncompressedBlock build ⟨st, input, free⟩ = .ok e)
    (hs : e.signal ≠ .needOutput) :
    passOutputUncompressedBlock build ⟨st, input, free + extra⟩ = .ok (e.widen extra) := by
  rw [passOutputUncompressedBlock_eq] at hp ⊢
  cases hassert : build.assert (st.size == 0) with
  | error fault => rw [hassert] at hp; cases hp
  | ok _ =>
    simp only [hassert] at hp ⊢
    by_cases hshort : input.length < min st.sequenceLen free
    · have hshort' : input.length < min st.sequenceLen (free + extra) := by omega
      rw [if_pos hshort, List.take_of_length_le hshort.le] at hp
      rw [if_pos hshort', List.take_of_length_le hshort'.le]
      cases hp
      rw [show free + extra - input.length = free - input.length + extra by omega]
      rfl
    · rw [if_neg hshort] at hp
      by_cases hfull : free < st.sequenceLen
      · rw [if_pos hfull] at hp
        cases hp
        exact absurd rfl hs
      · have hfull' : ¬free + extra < st.sequenceLen := by omega
        have hwanted : min st.sequenceLen (free + extra) = min st.sequenceLen free := by omega
        have hlength : (input.take (min st.sequenceLen free)).length ≤ free := by
          rw [List.length_take]
          omega
        rw [if_neg hfull] at hp
        rw [hwanted, if_neg hshort, if_neg hfull']
        cases hp
        rw [show free + extra - (input.take (min st.sequenceLen free)).length =
          free - (input.take (min st.sequenceLen free)).length + extra by omega]
        rfl

/-- A pass that goes on or waits for input does the same in front of a wider window. -/
theorem roomy_inflateStep : Roomy (inflateStep build) := by
  rintro ⟨st, input, free⟩ e extra hp hs
  rw [show (Pass.mk st input free).widen extra = ⟨st, input, free + extra⟩ from rfl]
  rw [inflateStep_eq] at hp ⊢
  by_cases hstores : st.step.stores = false
  · have hthrifty := thrifty_passOf build hstores ⟨st, input, free⟩ extra
    simp only at hp
    rw [hp] at hthrifty
    exact hthrifty
  cases hstep : st.step <;> simp only [hstep, InfStep.stores, not_true] at hstores
  case outputUncompressedBlock =>
    simp only [hstep, passOf] at hp ⊢
    exact roomy_outputUncompressedBlock build st input free extra hp
      (by rcases hs with hs | hs <;> simp [hs])
  case readLiteralOrLength2 =>
    simp only [hstep, passOf, passReadLiteralOrLength2_eq] at hp ⊢
    by_cases hliteral : st.literal < 256
    · rw [if_pos hliteral] at hp ⊢
      by_cases hfull : free = 0
      · rw [if_pos hfull] at hp
        cases hp
        rcases hs with hs | hs <;> cases hs
      · rw [if_neg hfull] at hp
        rw [if_neg (by omega)]
        split at hp
        · cases hp
        · cases hp
          rw [show free + extra - 1 = free - 1 + extra by omega]
          rfl
    · rw [if_neg hliteral] at hp ⊢
      by_cases hend : st.literal = 256
      · rw [if_pos hend] at hp ⊢
        cases hp; rfl
      · rw [if_neg hend] at hp ⊢
        by_cases hinvalid : 285 < st.literal
        · rw [if_pos hinvalid] at hp ⊢
          cases hp; rfl
        · rw [if_neg hinvalid] at hp ⊢
          cases hp; rfl
  case outputSequence =>
    simp only [hstep, passOf, passOutputSequence_eq] at hp ⊢
    by_cases hfits : st.sequenceLen ≤ free
    · have hwanted : min st.sequenceLen (free + extra) = min st.sequenceLen free := by omega
      have hfits' : st.sequenceLen ≤ free + extra := by omega
      rw [hwanted]
      split at hp
      · cases hp
      · rw [if_pos hfits] at hp
        rw [if_pos hfits']
        split at hp
        · cases hp
          rcases hs with hs | hs <;> cases hs
        · next hsucc =>
          cases hp
          rw [if_neg hsucc, show free + extra - min st.sequenceLen free =
            free - min st.sequenceLen free + extra by omega]
          rfl
    · split at hp
      · cases hp
      · rw [if_neg hfits] at hp
        split at hp <;> cases hp <;> rcases hs with hs | hs <;> cases hs

end Cases

end ZephyrThrift.Muzic
