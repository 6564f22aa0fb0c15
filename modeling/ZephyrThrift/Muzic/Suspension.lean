import ZephyrThrift.Muzic.Inflate
import ZephyrThrift.Muzic.ReaderSuspension
import ZephyrThrift.Muzic.Window

/-!
# Every pass of the inflater can be suspended

Each case of the switch either does not look at the input at all (`Inert`), or reads and keeps its
partial progress in the bit buffer and the symbol-length list (`Reads`), or copies bytes. So the body
of the loop obeys the law `Resumable`: cutting the input anywhere makes no difference.
-/

set_option autoImplicit false
set_option relaxedAutoImplicit false

namespace ZephyrThrift.Muzic

open Foundation

/-! ### Inert parts and readers -/

/-- A part of a pass that does not look at the input and does not suspend for it. -/
structure Inert (f : InfPass → Except Fault InfEffect) : Prop where
  facing : ∀ p input, f (p.facing input) = (f p).map fun e ↦ e.leaving input
  input : ∀ p e, f p = .ok e → e.pass.input = p.input
  signal : ∀ p e, f p = .ok e → e.signal ≠ .needInput

/-- A resumable pass that keeps its partial progress in the bit buffer and the symbol-length list. -/
structure Reads (f : InfPass → Except Fault InfEffect) : Prop extends Resumable f where
  frame : ∀ p e, f p = .ok e → e.signal = .needInput → ∃ bits size sllist,
    e.pass.state = { p.state with bits := bits, size := size, sllist := sllist }

theorem Inert.reads {f : InfPass → Except Fault InfEffect} (h : Inert f) : Reads f where
  frame p e hp hneed := absurd hneed (h.signal p e hp)
  fault p fault more hp := by rw [Pass.feed_eq_facing, h.facing, hp]; rfl
  settle p e hp _ := by
    refine ⟨[], (h.input p e hp).symm, fun rest ↦ ?_⟩
    rw [List.nil_append, h.facing, hp]
    rfl
  suspend p e more hp hneed := absurd hneed (h.signal p e hp)

theorem inert_ok (change : InfCore → InfCore) (stored : InfCore → List UInt8)
    (free : InfCore → ℕ → ℕ) {signal : Signal BlockResult} (h : signal ≠ .needInput) :
    Inert fun p ↦ .ok ⟨⟨change p.state, p.input, free p.state p.free⟩, stored p.state, signal⟩ where
  facing _ _ := rfl
  input p e hp := by cases hp; rfl
  signal p e hp := by cases hp; exact h

theorem inert_goto (step : InfStep) : Inert fun p ↦ goto p step where
  facing _ _ := rfl
  input p e hp := by cases hp; rfl
  signal p e hp := by cases hp; simp

theorem inert_fatal (msg : Option String) : Inert fun p ↦ fatal p [] msg where
  facing _ _ := rfl
  input p e hp := by cases hp; rfl
  signal p e hp := by cases hp; simp

theorem Inert.withState {f : InfPass → Except Fault InfEffect} (h : Inert f)
    (change : InfCore → InfCore) : Inert fun p ↦ f (withState p change) where
  facing p input := h.facing (Muzic.withState p change) input
  input p e hp := h.input (Muzic.withState p change) e hp
  signal _ e hp := h.signal _ e hp

theorem Inert.bind {α : Type} {f : α → InfPass → Except Fault InfEffect} (h : ∀ a, Inert (f a))
    (compute : InfCore → Except Fault α) : Inert fun p ↦ compute p.state >>= fun a ↦ f a p where
  facing p input := by
    simp only [Pass.facing_state]
    cases compute p.state with
    | error fault => rfl
    | ok a => exact (h a).facing p input
  input p e hp := by
    cases hcompute : compute p.state with
    | error fault => rw [hcompute] at hp; cases hp
    | ok a => rw [hcompute] at hp; exact (h a).input p e hp
  signal p e hp := by
    cases hcompute : compute p.state with
    | error fault => rw [hcompute] at hp; cases hp
    | ok a => rw [hcompute] at hp; exact (h a).signal p e hp

theorem Inert.ite {f g : InfPass → Except Fault InfEffect} (hf : Inert f) (hg : Inert g)
    (condition : InfCore → Prop) [DecidablePred condition] :
    Inert fun p ↦ if condition p.state then f p else g p where
  facing p input := by
    by_cases hp : condition p.state
    · rw [if_pos (show condition (p.facing input).state from hp), if_pos hp]
      exact hf.facing p input
    · rw [if_neg (show ¬condition (p.facing input).state from hp), if_neg hp]
      exact hg.facing p input
  input p e hp := by
    by_cases hcondition : condition p.state
    · simp only [if_pos hcondition] at hp; exact hf.input p e hp
    · simp only [if_neg hcondition] at hp; exact hg.input p e hp
  signal p e hp := by
    by_cases hcondition : condition p.state
    · simp only [if_pos hcondition] at hp; exact hf.signal p e hp
    · simp only [if_neg hcondition] at hp; exact hg.signal p e hp

theorem withBitstream_facing (p : InfPass) (bitstream : InfBS) (input rest : List UInt8) :
    withBitstream (p.facing input) (bitstream.facing rest) =
      (withBitstream p bitstream).facing rest := rfl

theorem bitstreamOf_facing (p : InfPass) (input : List UInt8) :
    bitstreamOf (p.facing input) = (bitstreamOf p).facing input := rfl

theorem bitstreamOf_withBitstream (p : InfPass) (bitstream : InfBS) :
    bitstreamOf (withBitstream p bitstream) = bitstream := rfl

/-- A pass that reads and then does not look at the input. -/
theorem reads_reading {α : Type} {read : InfBS → Except Fault (Option α × InfBS)}
    {next : α → InfPass → Except Fault InfEffect} (hread : InfBS.Suspendable read)
    (hnext : ∀ a, Inert (next a)) :
    Reads fun p ↦ reading p (read (bitstreamOf p)) next where
  frame p e h hneed := by
    simp only [reading] at h
    split at h
    · cases h
    · cases h; exact ⟨_, _, _, rfl⟩
    · next value after hp => exact absurd hneed ((hnext value).signal _ _ h)
  fault p fault more h := by
    simp only [reading, Pass.feed_eq_facing, bitstreamOf_facing] at h ⊢
    split at h
    · next fault' hp =>
      rw [show p.input = (bitstreamOf p).input from rfl, hread.fault _ _ more hp]
      exact h
    · cases h
    · next value after hp =>
      obtain ⟨used, hused, hsame⟩ := hread.settle _ _ _ hp
      rw [show p.input = (bitstreamOf p).input from rfl, hused, List.append_assoc, hsame]
      simp only [withBitstream_facing]
      rw [(hnext value).facing, h]
      rfl
  settle p e h hs := by
    simp only [reading] at h
    split at h
    · cases h
    · cases h; exact absurd rfl hs
    · next value after hp =>
      obtain ⟨used, hused, hsame⟩ := hread.settle _ _ _ hp
      have hinput := (hnext value).input _ _ h
      refine ⟨used, hused.trans (by rw [hinput]; rfl), fun rest ↦ ?_⟩
      simp only [reading, bitstreamOf_facing, hsame, withBitstream_facing]
      rw [(hnext value).facing, h]
      rfl
  suspend p e more h hneed := by
    simp only [reading] at h
    split at h
    · cases h
    · next after hp =>
      obtain ⟨hinput, hsame⟩ := hread.suspend _ _ more hp
      cases h
      refine ⟨hinput, ?_⟩
      rw [reportAfter_nil]
      simp only [reading, Pass.feed_eq_facing, bitstreamOf_facing, bitstreamOf_withBitstream]
      rw [show p.input = (bitstreamOf p).input from rfl, hsame,
        show (withBitstream p after).input = [] from hinput]
      rfl
    · next value after hp => exact absurd hneed ((hnext value).signal _ _ h)

/-- A pass that fills the symbol-length list and then does not look at the input. -/
theorem reads_listing
    (read : InfCore → InfSLList → InfBS → Except Fault (Bool × InfSLList × InfBS))
    {next : InfPass → Except Fault InfEffect} (hread : ∀ st, ListSuspendable (read st))
    (hsame : ∀ st bits size sllist,
      read { st with bits := bits, size := size, sllist := sllist } = read st)
    (hnext : Inert next) :
    Reads fun p ↦ listing p (read p.state p.state.sllist (bitstreamOf p)) next where
  frame p e h hneed := by
    simp only [listing] at h
    split at h
    · cases h
    · cases h; exact ⟨_, _, _, rfl⟩
    · next list after hp => exact absurd hneed (hnext.signal _ _ h)
  fault p fault more h := by
    simp only [listing, Pass.feed_eq_facing, bitstreamOf_facing, Pass.facing_state] at h ⊢
    split at h
    · next fault' hp =>
      rw [show p.input = (bitstreamOf p).input from rfl, (hread _).fault _ _ _ more hp]
      exact h
    · cases h
    · next list after hp =>
      obtain ⟨used, hused, hsame⟩ := (hread _).settle _ _ _ _ hp
      rw [show p.input = (bitstreamOf p).input from rfl, hused, List.append_assoc, hsame]
      simp only
      exact (hnext.facing _ _).trans (by rw [h])
  settle p e h hs := by
    simp only [listing] at h
    split at h
    · cases h
    · cases h; exact absurd rfl hs
    · next list after hp =>
      obtain ⟨used, hused, hsame⟩ := (hread _).settle _ _ _ _ hp
      have hinput := hnext.input _ _ h
      refine ⟨used, hused.trans (by rw [hinput]; rfl), fun rest ↦ ?_⟩
      simp only [listing, bitstreamOf_facing, Pass.facing_state, hsame]
      exact (hnext.facing _ _).trans (by rw [h])
  suspend p e more h hneed := by
    simp only [listing] at h
    split at h
    · cases h
    · next list after hp =>
      obtain ⟨hinput, hagain⟩ := (hread _).suspend _ _ _ _ more hp
      cases h
      refine ⟨hinput, ?_⟩
      rw [reportAfter_nil]
      simp only [listing, Pass.feed_eq_facing, bitstreamOf_facing, Pass.facing_state]
      rw [show p.input = (bitstreamOf p).input from rfl, hagain]
      simp only [withState, withBitstream, hsame, hinput]
      rfl
    · next list after hp => exact absurd hneed (hnext.signal _ _ h)

/-- A pass that first looks something up in the state. -/
theorem Reads.bind {α : Type} {f : α → InfPass → Except Fault InfEffect}
    (compute : InfCore → Except Fault α) (h : ∀ a, Reads (f a))
    (hsame : ∀ st bits size sllist,
      compute { st with bits := bits, size := size, sllist := sllist } = compute st) :
    Reads fun p ↦ compute p.state >>= fun a ↦ f a p where
  frame p e hp hneed := by
    cases hcompute : compute p.state with
    | error fault => rw [hcompute] at hp; cases hp
    | ok a => rw [hcompute] at hp; exact (h a).frame p e hp hneed
  fault p fault more hp := by
    simp only [Pass.feed]
    cases hcompute : compute p.state with
    | error fault' => rw [hcompute] at hp; exact hp
    | ok a => rw [hcompute] at hp; exact (h a).fault p fault more hp
  settle p e hp hs := by
    simp only [Pass.facing_state]
    cases hcompute : compute p.state with
    | error fault => rw [hcompute] at hp; cases hp
    | ok a => rw [hcompute] at hp; exact (h a).settle p e hp hs
  suspend p e more hp hneed := by
    cases hcompute : compute p.state with
    | error fault => rw [hcompute] at hp; cases hp
    | ok a =>
      rw [hcompute] at hp
      obtain ⟨hinput, hagain⟩ := (h a).suspend p e more hp hneed
      obtain ⟨bits, size, sllist, hstate⟩ := (h a).frame p e hp hneed
      refine ⟨hinput, ?_⟩
      simp only [Pass.feed, hstate, hsame, hcompute] at hagain ⊢
      exact hagain

/-! ### The cases of the switch -/

section Laws

variable (build : Build)

theorem inert_passStart : Inert passStart := (inert_goto _).withState _

theorem inert_passProcessNextBlock : Inert passProcessNextBlock :=
  ((inert_goto _).withState _).ite (inert_goto _) fun st ↦ st.isLastBlock ≠ 0

theorem reads_passReadBlockHeader : Reads passReadBlockHeader := by
  refine reads_reading (InfBS.suspendable_readBits 3) fun temp ↦ ?_
  generalize temp >>> 1 = blockType
  rcases blockType with _ | _ | _ | _
  · exact (inert_goto _).withState _
  · exact (inert_goto _).withState _
  · exact (inert_goto _).withState _
  · exact (inert_fatal _).withState _

theorem reads_passProcessUncompressedBlock : Reads (passProcessUncompressedBlock build) :=
  reads_reading (InfBS.suspendable_readDWord build) fun temp ↦
    ((inert_fatal _).ite (inert_goto _)
      fun st ↦ st.sequenceLen ≠ (2 ^ 32 - 1 - temp) >>> 16).withState _

theorem inert_passLoadFixedHuffmanDecoders : Inert (passLoadFixedHuffmanDecoders build) := by
  have hstore : ∀ made : (HuffTable × InfSLList) × HuffTable × InfSLList, Inert fun p ↦
      goto (withState p fun st ↦
        { st with
          sllist := made.2.2
          statics := ⟨some made.1.1, some made.2.1⟩
          literalDecoder := some .fixedLiteral
          distanceDecoder := some .fixedDistance }) .processCompressedBlock :=
    fun made ↦ (inert_goto _).withState _
  have hbind := Inert.bind hstore fun st ↦ do
    let literal ← infHuffMakeFixedLiteralDecoder build st.statics.cachedLiteral st.sllist
    let distance ← infHuffMakeFixedDistanceDecoder build st.statics.cachedDistance literal.2
    return (literal, distance)
  refine cast (congrArg Inert (funext fun p ↦ ?_)) hbind
  simp only [passLoadFixedHuffmanDecoders, bind_assoc, pure_bind]

theorem reads_passLoadDynamicHuffmanDecoders : Reads passLoadDynamicHuffmanDecoders :=
  reads_reading (InfBS.suspendable_readBits _) fun _ ↦ (inert_goto _).withState _

/-- What follows the reading of a list of code lengths: sort it, make a table, store both. -/
theorem inert_makeDecoder (resetRepetitions : Bool) (table : InfCore → HuffTable)
    (store : InfSLList → HuffTable → InfCore → InfCore) (next : InfStep) :
    Inert (fun p ↦ do
      let (sorted, list) ← infSLListGetSorted p.state.sllist resetRepetitions
      let made ← infHuffMakeDecoder build (table p.state) sorted
      goto (withState p (store list made)) next) := by
  have hbind := Inert.bind
    (f := fun made p ↦ goto (withState p (store made.1 made.2)) next)
    (fun made ↦ (inert_goto next).withState (store made.1 made.2)) fun st ↦ do
    let sorted ← infSLListGetSorted st.sllist resetRepetitions
    let made ← infHuffMakeDecoder build (table st) sorted.1
    return (sorted.2, made)
  refine cast (congrArg Inert (funext fun p ↦ ?_)) hbind
  simp only [bind_assoc, pure_bind]

theorem reads_passLoadFrontDecoder : Reads (passLoadFrontDecoder build) :=
  reads_listing
    (fun st list bitstream ↦
      infSLListAdd3BitSymlens build list bitstream (((st.symcount >>> 10) &&& 0x0F) + 4))
    (fun _ ↦ listSuspendable_infSLListAdd3BitSymlens build _) (fun _ _ _ _ ↦ rfl)
    (inert_makeDecoder build true InfCore.huffmanTableA (fun list table st ↦
      { st with sllist := list, huffmanTableA := table, frontDecoder := some .huffmanTableA }) _)

theorem reads_passLoadLiteralDecoder : Reads (passLoadLiteralDecoder build) := by
  refine Reads.bind (fun st ↦ st.decoder st.frontDecoder) (fun decoder ↦ ?_)
    fun _ _ _ _ ↦ rfl
  exact reads_listing
    (fun st list bitstream ↦
      infSLListAddEncodedSymlens build list bitstream ((st.symcount &&& 0x1F) + 257) decoder)
    (fun _ ↦ listSuspendable_infSLListAddEncodedSymlens _ _) (fun _ _ _ _ ↦ rfl)
    (inert_makeDecoder build false InfCore.huffmanTableB (fun list table st ↦
      { st with sllist := list, huffmanTableB := table, literalDecoder := some .huffmanTableB }) _)

theorem reads_passLoadDistanceDecoder : Reads (passLoadDistanceDecoder build) := by
  refine Reads.bind (fun st ↦ st.decoder st.frontDecoder) (fun decoder ↦ ?_)
    fun _ _ _ _ ↦ rfl
  exact reads_listing
    (fun st list bitstream ↦
      infSLListAddEncodedSymlens build list bitstream (((st.symcount >>> 5) &&& 0x1F) + 1) decoder)
    (fun _ ↦ listSuspendable_infSLListAddEncodedSymlens _ _) (fun _ _ _ _ ↦ rfl)
    (inert_makeDecoder build true InfCore.huffmanTableA (fun list table st ↦
      { st with sllist := list, huffmanTableA := table, distanceDecoder := some .huffmanTableA }) _)

theorem reads_passReadLiteralOrLength : Reads passReadLiteralOrLength :=
  Reads.bind (fun st ↦ st.decoder st.literalDecoder)
    (fun decoder ↦ reads_reading (InfBS.suspendable_readEncodedBits decoder)
      fun _ ↦ (inert_goto _).withState _) fun _ _ _ _ ↦ rfl

theorem inert_passReadLiteralOrLength2 : Inert (passReadLiteralOrLength2 build) := by
  have hput : Inert fun p ↦
      infOutbufPutc build p.state.outputBuf (UInt8.ofNat p.state.literal) >>= fun outputBuf ↦
        .ok ⟨withState { p with free := p.free - 1 } fun st ↦
          { st with outputBuf := outputBuf, step := .readLiteralOrLength },
          [UInt8.ofNat p.state.literal], .proceed⟩ := by
    constructor
    · intro p input
      simp only [Pass.facing_state]
      cases infOutbufPutc build p.state.outputBuf (UInt8.ofNat p.state.literal) <;> rfl
    · intro p e h
      obtain ⟨_, _, h⟩ := bind_ok h
      cases h; rfl
    · intro p e h
      obtain ⟨_, _, h⟩ := bind_ok h
      cases h; simp
  have hliteral : Inert fun p ↦
      if p.free = 0 then .ok ⟨p, [], .needOutput⟩
      else
        infOutbufPutc build p.state.outputBuf (UInt8.ofNat p.state.literal) >>= fun outputBuf ↦
          .ok ⟨withState { p with free := p.free - 1 } fun st ↦
            { st with outputBuf := outputBuf, step := .readLiteralOrLength },
            [UInt8.ofNat p.state.literal], .proceed⟩ := by
    constructor
    · intro p input
      by_cases hfree : p.free = 0
      · rw [if_pos (show (p.facing input).free = 0 from hfree), if_pos hfree]
        rfl
      · rw [if_neg (show ¬(p.facing input).free = 0 from hfree), if_neg hfree]
        exact hput.facing p input
    · intro p e h
      split at h
      · cases h; rfl
      · exact hput.input p e h
    · intro p e h
      split at h
      · cases h; simp
      · exact hput.signal p e h
  have hpass := hliteral.ite ((inert_goto .processNextBlock).ite
    ((inert_fatal (some "too many length or distance symbols")).ite
      ((inert_goto .readLengthBits).withState fun st ↦ { st with literal := st.literal - 257 })
      fun st ↦ 285 < st.literal) fun st ↦ st.literal = 256) fun st ↦ st.literal < 256
  refine (congrArg Inert (funext fun p ↦ ?_)).mpr hpass
  simp only [passReadLiteralOrLength2]
  cases infOutbufPutc build p.state.outputBuf (UInt8.ofNat p.state.literal) <;> rfl

theorem reads_passReadLengthBits : Reads (passReadLengthBits build) := by
  refine Reads.bind (fun st ↦ staticEntry lengthExtraBits st.literal)
    (fun extraBits ↦ ?_) fun _ _ _ _ ↦ rfl
  refine Reads.bind (fun st ↦ staticEntry lengthStarts st.literal)
    (fun start ↦ ?_) fun _ _ _ _ ↦ rfl
  exact reads_reading (InfBS.suspendable_readBits extraBits) fun temp ↦
    Inert.bind (fun _ ↦ (inert_goto _).withState _) fun _ ↦ build.assert _

theorem reads_passReadDistance : Reads passReadDistance :=
  Reads.bind (fun st ↦ st.decoder st.distanceDecoder)
    (fun decoder ↦ reads_reading (InfBS.suspendable_readEncodedBits decoder)
      fun _ ↦ ((inert_fatal _).ite (inert_goto _) fun st ↦ 29 < st.literal).withState _)
    fun _ _ _ _ ↦ rfl

theorem reads_passReadDistanceBits : Reads (passReadDistanceBits build) := by
  refine Reads.bind (fun st ↦ staticEntry distanceExtraBits st.literal)
    (fun extraBits ↦ ?_) fun _ _ _ _ ↦ rfl
  refine Reads.bind (fun st ↦ staticEntry distanceStarts st.literal)
    (fun start ↦ ?_) fun _ _ _ _ ↦ rfl
  exact reads_reading (InfBS.suspendable_readBits extraBits) fun temp ↦
    Inert.bind (fun _ ↦ (inert_goto _).withState _) fun _ ↦ build.assert _

/-- What a match does once the window has been read. -/
theorem passOutputSequence_eq (st : InfCore) (input : List UInt8) (free : ℕ) :
    passOutputSequence build ⟨st, input, free⟩ =
      match infOutbufRead build st.outputBuf st.sequenceDist (min st.sequenceLen free) with
      | .error fault => .error fault
      | .ok (succ, bytes, outputBuf) =>
        let after := { st with
          outputBuf := outputBuf, sequenceLen := st.sequenceLen - min st.sequenceLen free }
        let left := free - min st.sequenceLen free
        if succ = false then
          .ok ⟨⟨{ after with step := .fatalError }, input, left⟩, bytes, .halt (.dataError none)⟩
        else if st.sequenceLen ≤ free then
          .ok ⟨⟨{ after with step := .readLiteralOrLength }, input, left⟩, bytes, .proceed⟩
        else .ok ⟨⟨after, input, left⟩, bytes, .needOutput⟩ := by
  simp only [passOutputSequence, decide_eq_true_eq]
  rfl

theorem inert_passOutputSequence : Inert (passOutputSequence build) := by
  constructor
  · rintro ⟨st, unread, free⟩ input
    rw [show (Pass.mk st unread free).facing input = ⟨st, input, free⟩ from rfl,
      passOutputSequence_eq, passOutputSequence_eq]
    split
    · rfl
    · simp only
      split
      · rfl
      · split <;> rfl
  · rintro ⟨st, unread, free⟩ e h
    rw [passOutputSequence_eq] at h
    split at h
    · cases h
    · split at h
      · cases h; rfl
      · split at h <;> cases h <;> rfl
  · rintro ⟨st, unread, free⟩ e h
    rw [passOutputSequence_eq] at h
    split at h
    · cases h
    · split at h
      · cases h; simp
      · split at h <;> cases h <;> simp

/-- The bytes of a stored block are copied as far as input and window go. -/
theorem passOutputUncompressedBlock_eq (st : InfCore) (input : List UInt8) (free : ℕ) :
    passOutputUncompressedBlock build ⟨st, input, free⟩ =
      match build.assert (st.size == 0) with
      | .error fault => .error fault
      | .ok () =>
        let bytes := input.take (min st.sequenceLen free)
        let after := { st with
          outputBuf := infOutbufWrite st.outputBuf bytes
          sequenceLen := st.sequenceLen - bytes.length }
        if input.length < min st.sequenceLen free then
          .ok ⟨⟨after, [], free - bytes.length⟩, bytes, .needInput⟩
        else if free < st.sequenceLen then
          .ok ⟨⟨after, input.drop (min st.sequenceLen free), free - bytes.length⟩, bytes, .needOutput⟩
        else .ok ⟨⟨{ after with step := .processNextBlock },
          input.drop (min st.sequenceLen free), free - bytes.length⟩, bytes, .proceed⟩ := by
  simp only [passOutputUncompressedBlock, InfBS.readBytes, bitstreamOf]
  cases build.assert (st.size == 0) with
  | error fault => rfl
  | ok _ =>
    simp only
    by_cases hshort : input.length < min st.sequenceLen free
    · rw [if_pos hshort, min_eq_right hshort.le, List.take_length, List.drop_length,
        List.take_of_length_le hshort.le,
        if_pos (beq_eq_false_iff_ne.mpr (by omega : input.length ≠ _))]
      rfl
    · have hall : min (min st.sequenceLen free) input.length = min st.sequenceLen free :=
        min_eq_left (not_lt.mp hshort)
      have hlength : (input.take (min st.sequenceLen free)).length = min st.sequenceLen free := by
        rw [List.length_take, hall]
      rw [if_neg hshort, hall, beq_self_eq_true, if_neg (by simp)]
      simp only [withState, withBitstream, hlength]
      by_cases hfull : free < st.sequenceLen
      · rw [if_pos hfull, if_pos (by omega)]
      · rw [if_neg hfull, if_neg (by omega)]

theorem resumable_passOutputUncompressedBlock :
    Resumable (passOutputUncompressedBlock build) where
  fault := by
    rintro ⟨st, input, free⟩ fault more h
    rw [show (Pass.mk st input free).feed more = ⟨st, input ++ more, free⟩ from rfl]
    rw [passOutputUncompressedBlock_eq] at h ⊢
    cases hassert : build.assert (st.size == 0) with
    | error fault' => rw [hassert] at h; exact h
    | ok _ =>
      simp only [hassert] at h
      split at h
      · cases h
      · split at h <;> cases h
  settle := by
    rintro ⟨st, input, free⟩ e h hs
    rw [passOutputUncompressedBlock_eq] at h
    cases hassert : build.assert (st.size == 0) with
    | error fault => rw [hassert] at h; cases h
    | ok _ =>
      simp only [hassert] at h
      by_cases hshort : input.length < min st.sequenceLen free
      · rw [if_pos hshort] at h; cases h; exact absurd rfl hs
      · have hlength : (input.take (min st.sequenceLen free)).length = min st.sequenceLen free := by
          rw [List.length_take, min_eq_left (not_lt.mp hshort)]
        have hinput : e.pass.input = input.drop (min st.sequenceLen free) := by
          rw [if_neg hshort] at h
          split at h <;> cases h <;> rfl
        refine ⟨input.take (min st.sequenceLen free), ?_, fun rest ↦ ?_⟩
        · rw [hinput, List.take_append_drop]
        · have hshort' : ¬(input.take (min st.sequenceLen free) ++ rest).length <
              min st.sequenceLen free := by rw [List.length_append, hlength]; omega
          rw [show (Pass.mk st input free).facing (input.take (min st.sequenceLen free) ++ rest) =
              ⟨st, input.take (min st.sequenceLen free) ++ rest, free⟩ from rfl,
            passOutputUncompressedBlock_eq, hassert]
          simp only
          rw [if_neg hshort', List.take_left' hlength, List.drop_left' hlength]
          rw [if_neg hshort] at h
          by_cases hfull : free < st.sequenceLen
          · rw [if_pos hfull] at h ⊢; cases h; rfl
          · rw [if_neg hfull] at h ⊢; cases h; rfl
  suspend := by
    rintro ⟨st, input, free⟩ e more h hneed
    rw [passOutputUncompressedBlock_eq] at h
    cases hassert : build.assert (st.size == 0) with
    | error fault => rw [hassert] at h; cases h
    | ok _ =>
      simp only [hassert] at h
      by_cases hshort : input.length < min st.sequenceLen free
      · rw [if_pos hshort, List.take_of_length_le hshort.le] at h
        cases h
        refine ⟨rfl, ?_⟩
        have hwanted : min (st.sequenceLen - input.length) (free - input.length) =
          min st.sequenceLen free - input.length := by omega
        have htake : (input ++ more).take (min st.sequenceLen free) =
            input ++ more.take (min st.sequenceLen free - input.length) := by
          rw [List.take_append, List.take_of_length_le hshort.le]
        have hdrop : (input ++ more).drop (min st.sequenceLen free) =
            more.drop (min st.sequenceLen free - input.length) := by
          rw [List.drop_append, List.drop_of_length_le hshort.le, List.nil_append]
        rw [show (Pass.mk st input free).feed more = ⟨st, input ++ more, free⟩ from rfl,
          passOutputUncompressedBlock_eq, hassert]
        simp only [Pass.feed, List.nil_append]
        rw [passOutputUncompressedBlock_eq]
        simp only [hassert]
        rw [hwanted, htake, hdrop, infOutbufWrite_append, List.length_append, List.length_append,
          ← Nat.sub_sub, ← Nat.sub_sub]
        by_cases hagain : input.length + more.length < min st.sequenceLen free
        · have hagain' : more.length < min st.sequenceLen free - input.length := by omega
          rw [if_pos hagain, if_pos hagain']
          rfl
        · have hagain' : ¬more.length < min st.sequenceLen free - input.length := by omega
          rw [if_neg hagain, if_neg hagain']
          by_cases hfull : free < st.sequenceLen
          · have hfull' : free - input.length < st.sequenceLen - input.length := by omega
            rw [if_pos hfull, if_pos hfull']
            rfl
          · have hfull' : ¬free - input.length < st.sequenceLen - input.length := by omega
            rw [if_neg hfull, if_neg hfull']
            rfl
      · rw [if_neg hshort] at h
        split at h <;> cases h <;> cases hneed

/-- The trailer is skipped as far as the input goes. -/
theorem passAdler32Checksum_eq (st : InfCore) (input : List UInt8) (free : ℕ) :
    passAdler32Checksum ⟨st, input, free⟩ =
      if st.isLastBlock ≤ input.length then
        .ok ⟨⟨{ st with isLastBlock := 0, step := .end }, input.drop st.isLastBlock, free⟩, [],
          .proceed⟩
      else
        .ok ⟨⟨{ st with isLastBlock := st.isLastBlock - input.length }, [], free⟩, [],
          .needInput⟩ := by
  by_cases hall : st.isLastBlock ≤ input.length
  · have hread : min st.isLastBlock input.length = st.isLastBlock := min_eq_left hall
    rw [if_pos hall]
    simp only [passAdler32Checksum, withState, hread, Nat.sub_self, if_true]
    rfl
  · have hread : min st.isLastBlock input.length = input.length := min_eq_right (by omega)
    have hleft : ¬st.isLastBlock - input.length = 0 := by omega
    rw [if_neg hall]
    simp only [passAdler32Checksum, withState, hread, List.drop_length]
    exact if_neg hleft

theorem resumable_passAdler32Checksum : Resumable passAdler32Checksum where
  fault := by
    rintro ⟨st, input, free⟩ fault more h
    rw [passAdler32Checksum_eq] at h
    split at h <;> cases h
  settle := by
    rintro ⟨st, input, free⟩ e h hs
    rw [passAdler32Checksum_eq] at h
    by_cases hall : st.isLastBlock ≤ input.length
    · have hlength : (input.take st.isLastBlock).length = st.isLastBlock := by
        rw [List.length_take, min_eq_left hall]
      rw [if_pos hall] at h
      cases h
      refine ⟨input.take st.isLastBlock, (List.take_append_drop _ _).symm, fun rest ↦ ?_⟩
      rw [show (Pass.mk st input free).facing (input.take st.isLastBlock ++ rest) =
          ⟨st, input.take st.isLastBlock ++ rest, free⟩ from rfl, passAdler32Checksum_eq,
        if_pos (by rw [List.length_append, hlength]; omega), List.drop_left' hlength]
      rfl
    · rw [if_neg hall] at h
      cases h
      exact absurd rfl hs
  suspend := by
    rintro ⟨st, input, free⟩ e more h hneed
    rw [passAdler32Checksum_eq] at h
    by_cases hall : st.isLastBlock ≤ input.length
    · rw [if_pos hall] at h; cases h; cases hneed
    · rw [if_neg hall] at h
      cases h
      refine ⟨rfl, ?_⟩
      rw [show (Pass.mk st input free).feed more = ⟨st, input ++ more, free⟩ from rfl,
        passAdler32Checksum_eq]
      simp only [Pass.feed, List.nil_append]
      rw [passAdler32Checksum_eq, List.length_append]
      by_cases hagain : st.isLastBlock ≤ input.length + more.length
      · have hagain' : st.isLastBlock - input.length ≤ more.length := by omega
        rw [if_pos hagain, if_pos hagain', List.drop_append,
          List.drop_of_length_le (by omega : input.length ≤ _)]
        rfl
      · have hagain' : ¬st.isLastBlock - input.length ≤ more.length := by omega
        rw [if_neg hagain, if_neg hagain', Nat.sub_sub]
        rfl

theorem inert_fatalError : Inert fun p ↦ .ok ⟨p, [], .proceed⟩ where
  facing _ _ := rfl
  input p e hp := by cases hp; rfl
  signal p e hp := by cases hp; simp

theorem inert_end : Inert fun p ↦ .ok ⟨p, [], .halt .streamEnd⟩ where
  facing _ _ := rfl
  input p e hp := by cases hp; rfl
  signal p e hp := by cases hp; simp

/-- The case of the switch for a step. -/
def passOf : InfStep → InfPass → Except Fault InfEffect
  | .start => passStart
  | .processNextBlock => passProcessNextBlock
  | .readBlockHeader => passReadBlockHeader
  | .processUncompressedBlock => passProcessUncompressedBlock build
  | .outputUncompressedBlock => passOutputUncompressedBlock build
  | .loadFixedHuffmanDecoders => passLoadFixedHuffmanDecoders build
  | .loadDynamicHuffmanDecoders => passLoadDynamicHuffmanDecoders
  | .loadFrontDecoder => passLoadFrontDecoder build
  | .loadLiteralDecoder => passLoadLiteralDecoder build
  | .loadDistanceDecoder => passLoadDistanceDecoder build
  | .processCompressedBlock => passReadLiteralOrLength
  | .readLiteralOrLength => passReadLiteralOrLength
  | .readLiteralOrLength2 => passReadLiteralOrLength2 build
  | .readLengthBits => passReadLengthBits build
  | .readDistance => passReadDistance
  | .readDistanceBits => passReadDistanceBits build
  | .outputSequence => passOutputSequence build
  | .fatalError => fun p ↦ .ok ⟨p, [], .proceed⟩
  | .adler32Checksum => passAdler32Checksum
  | .end => fun p ↦ .ok ⟨p, [], .halt .streamEnd⟩

theorem inflateStep_eq (p : InfPass) : inflateStep build p = passOf build p.state.step p := by
  rw [inflateStep]
  cases p.state.step <;> rfl

/-- Every case of the switch is resumable, and waits for input without leaving its step. -/
theorem passOf_law (step : InfStep) : Resumable (passOf build step) ∧
    ∀ p e, passOf build step p = .ok e → e.signal = .needInput →
      e.pass.state.step = p.state.step := by
  have hreads : ∀ {f : InfPass → Except Fault InfEffect}, Reads f → Resumable f ∧
      ∀ p e, f p = .ok e → e.signal = .needInput → e.pass.state.step = p.state.step := by
    intro f h
    refine ⟨h.toResumable, fun p e hp hneed ↦ ?_⟩
    obtain ⟨bits, size, sllist, hstate⟩ := h.frame p e hp hneed
    rw [hstate]
  cases step with
  | start => exact hreads inert_passStart.reads
  | processNextBlock => exact hreads inert_passProcessNextBlock.reads
  | readBlockHeader => exact hreads reads_passReadBlockHeader
  | processUncompressedBlock => exact hreads (reads_passProcessUncompressedBlock build)
  | outputUncompressedBlock =>
    refine ⟨resumable_passOutputUncompressedBlock build, ?_⟩
    rintro ⟨st, input, free⟩ e hp hneed
    rw [passOf, passOutputUncompressedBlock_eq] at hp
    split at hp
    · cases hp
    · simp only at hp
      split at hp
      · cases hp; rfl
      · split at hp <;> cases hp <;> cases hneed
  | loadFixedHuffmanDecoders => exact hreads (inert_passLoadFixedHuffmanDecoders build).reads
  | loadDynamicHuffmanDecoders => exact hreads reads_passLoadDynamicHuffmanDecoders
  | loadFrontDecoder => exact hreads (reads_passLoadFrontDecoder build)
  | loadLiteralDecoder => exact hreads (reads_passLoadLiteralDecoder build)
  | loadDistanceDecoder => exact hreads (reads_passLoadDistanceDecoder build)
  | processCompressedBlock => exact hreads reads_passReadLiteralOrLength
  | readLiteralOrLength => exact hreads reads_passReadLiteralOrLength
  | readLiteralOrLength2 => exact hreads (inert_passReadLiteralOrLength2 build).reads
  | readLengthBits => exact hreads (reads_passReadLengthBits build)
  | readDistance => exact hreads reads_passReadDistance
  | readDistanceBits => exact hreads (reads_passReadDistanceBits build)
  | outputSequence => exact hreads (inert_passOutputSequence build).reads
  | fatalError => exact hreads inert_fatalError.reads
  | adler32Checksum =>
    refine ⟨resumable_passAdler32Checksum, ?_⟩
    rintro ⟨st, input, free⟩ e hp hneed
    rw [passOf, passAdler32Checksum_eq] at hp
    split at hp
    · cases hp; cases hneed
    · cases hp; rfl
  | «end» => exact hreads inert_end.reads

/-- The loop body of the inflater can be cut off from its input anywhere. -/
theorem resumable_inflateStep : Resumable (inflateStep build) where
  fault p fault more h := by
    rw [inflateStep_eq] at h ⊢
    exact (passOf_law build p.state.step).1.fault p fault more h
  settle p e h hs := by
    rw [inflateStep_eq] at h
    obtain ⟨used, hused, hsame⟩ := (passOf_law build p.state.step).1.settle p e h hs
    exact ⟨used, hused, fun rest ↦ by rw [inflateStep_eq]; exact hsame rest⟩
  suspend p e more h hneed := by
    rw [inflateStep_eq] at h
    obtain ⟨hinput, hsame⟩ := (passOf_law build p.state.step).1.suspend p e more h hneed
    have hstep := (passOf_law build p.state.step).2 p e h hneed
    refine ⟨hinput, ?_⟩
    rw [inflateStep_eq, inflateStep_eq]
    simp only [Pass.feed, hstep] at hsame ⊢
    exact hsame

end Laws

end ZephyrThrift.Muzic
