import ZephyrThrift.Muzic.Endings

/-!
# How much a stream can expand

A code word has at least one bit, and stands for a byte, or together with another one for a match of at
most 258 bytes. So the bytes that a run of calls stores are at most 1032 times the bytes that it takes
in (`inflate_expansion`), whatever is sent, however it is cut and wherever it ends, as long as the
dynamic headers carry complete codes. `budget` is the number of bytes that the bits ahead can still
pay for; no pass raises it by more than it stores (`pays`).
-/

set_option autoImplicit false
set_option relaxedAutoImplicit false

namespace ZephyrThrift.Muzic

open Foundation

/-! ### No reader makes bits -/

section Readers

variable {bitstream after : InfBS}

theorem InfBS.readBits_amount_le {count : ℕ} {result : Option ℕ}
    (h : bitstream.readBits count = .ok (result, after)) : after.amount ≤ bitstream.amount := by
  cases result with
  | some value => exact Nat.le_of_add_right_le (readBits_amount h).le
  | none =>
    simp only [readBits] at h
    split at h
    · cases h
    · next loaded hload =>
      cases h
      exact (loadUpTo_amount _ _ _ hload).1.le
    · cases h

theorem InfBS.readDWord_amount_le {build : Build} {result : Option ℕ}
    (h : bitstream.readDWord build = .ok (result, after)) : after.amount ≤ bitstream.amount := by
  cases result with
  | some value => exact Nat.le_of_add_right_le (readDWord_amount h)
  | none =>
    simp only [readDWord] at h
    split at h
    · cases h
    · next loaded hload =>
      have hamount := (loadUpTo_amount _ _ _ hload).1
      cases h
      simp only [amount] at hamount ⊢
      omega
    · split at h <;> cases h

theorem read3BitLengths_amount_le {done : Bool} {list' : InfSLList} (count : ℕ) :
    ∀ list bitstream, read3BitLengths list bitstream count = .ok (done, list', after) →
      after.amount ≤ bitstream.amount := by
  induction count with
  | zero => intro list bitstream h; cases h; exact le_rfl
  | succ count ih =>
    intro list bitstream h
    rw [read3BitLengths] at h
    split at h
    · cases h
    · next hread => cases h; exact InfBS.readBits_amount_le hread
    · next hread => exact (ih _ _ h).trans (InfBS.readBits_amount_le hread)

theorem add3BitSymlens_amount_le {build : Build} {done : Bool} {list list' : InfSLList} {count : ℕ}
    (h : infSLListAdd3BitSymlens build list bitstream count = .ok (done, list', after)) :
    after.amount ≤ bitstream.amount := by
  simp only [infSLListAdd3BitSymlens] at h
  split at h
  · cases h
  · next hread => cases h; exact read3BitLengths_amount_le _ _ _ hread
  · next hread =>
    split at h
    · cases h
    · cases h
      exact read3BitLengths_amount_le _ _ _ hread

theorem readCommand_amount_le {decoder : HuffTable} {done : Bool} {list list' : InfSLList}
    (h : readCommand decoder list bitstream = .ok (done, list', after)) :
    after.amount ≤ bitstream.amount := by
  have hrun : ∀ (list : InfSLList) (bitstream : InfBS),
      runCommand list bitstream = .ok (done, list', after) → after.amount ≤ bitstream.amount := by
    intro list bitstream h
    rcases runCommand_cases list with ⟨extraBits, base, length, _, hcase⟩ | hcase
    · rw [hcase, readRepetitions] at h
      split at h
      · cases h
      · next hread => cases h; exact InfBS.readBits_amount_le hread
      · next hread => cases h; exact InfBS.readBits_amount_le hread
    · rw [hcase] at h
      cases h
      exact le_rfl
  rw [readCommand] at h
  split at h
  · split at h
    · cases h
    · next hread => cases h; exact InfBS.readEncodedBits_amount hread
    · next hread => exact (hrun _ _ h).trans (InfBS.readEncodedBits_amount hread)
  · exact hrun _ _ h

theorem encodedSymlensLoop_amount_le {build : Build} {numberOfSymlens : ℕ} {decoder : HuffTable}
    {done : Bool} {list' : InfSLList} (fuel : ℕ) :
    ∀ list bitstream, encodedSymlensLoop build numberOfSymlens decoder fuel list bitstream =
      .ok (done, list', after) → after.amount ≤ bitstream.amount := by
  induction fuel with
  | zero => intro list bitstream h; cases h
  | succ fuel ih =>
    intro list bitstream h
    rw [encodedSymlensLoop] at h
    split at h
    · split at h
      · cases h
      · split at h
        · split at h
          · cases h
          · split at h
            · cases h
            · next hread => cases h; exact readCommand_amount_le hread
            · next hread => exact (ih _ _ h).trans (readCommand_amount_le hread)
        · cases h; exact le_rfl
    · cases h; exact le_rfl

end Readers

/-! ### Symbols that cost a bit -/

/-- Every entry that a look-up finds has a length. -/
def HuffTable.Consuming (table : HuffTable) : Prop :=
  ∀ bits entry, infHuffDecode table bits = .ok entry → 0 < entry.length

/-- A symbol from such a table takes at least one bit. -/
theorem InfBS.readEncodedLoop_lt {decoder : HuffTable} (hdecoder : decoder.Consuming) {symbol : ℕ}
    {after : InfBS} (input : List UInt8) :
    ∀ bits size, readEncodedLoop decoder bits size input = .ok (some symbol, after) →
      after.amount < 8 * input.length + size := by
  have htake : ∀ {data : InfHuff} {bits size : ℕ} {input : List UInt8},
      infHuffDecode decoder bits = .ok data → ¬ size < data.length →
        takeCode data ⟨bits, size, input⟩ = .ok (some symbol, after) →
          after.amount < 8 * input.length + size := by
    intro data bits size input hdata hsize h
    have hpositive := hdecoder bits data hdata
    simp only [takeCode] at h
    split at h
    · cases h
    · cases h
      simp only [amount]
      omega
  induction input with
  | nil =>
    intro bits size h
    rw [readEncodedLoop_eq] at h
    split at h
    · cases h
    · next data hdata =>
      split at h
      · cases h
      · next hsize => exact htake hdata hsize h
  | cons byte input ih =>
    intro bits size h
    rw [readEncodedLoop_eq] at h
    split at h
    · cases h
    · next data hdata =>
      split at h
      · simp only at h
        split at h
        · cases h
        · have := ih _ _ h
          rw [List.length_cons]
          omega
      · next hsize => exact htake hdata hsize h

theorem InfBS.readEncodedBits_lt {decoder : HuffTable} (hdecoder : decoder.Consuming) {symbol : ℕ}
    {bitstream after : InfBS}
    (h : bitstream.readEncodedBits decoder = .ok (some symbol, after)) :
    after.amount < bitstream.amount := by
  obtain ⟨bits, size, input⟩ := bitstream
  simp only [readEncodedBits] at h
  split at h
  · next hsize =>
    split at h
    · cases h
    · split at h
      · cases h
      · have hloop := readEncodedLoop_lt hdecoder _ _ _ h
        simp only [amount, List.length_cons] at hloop ⊢
        omega
  · exact readEncodedLoop_lt hdecoder _ _ _ h

/-- The table of a complete code finds nothing but its code words. -/
theorem Decodes.consuming {table : HuffTable} {lengths : List ℕ} (h : Decodes table lengths)
    (hcomplete : Complete maxCodeLength lengths) : table.Consuming := by
  intro bits entry hentry
  obtain ⟨symbol, hpos, hcode⟩ := hcomplete.exists_code (reverseBits_lt maxCodeLength bits)
  have hle := hcomplete.short _ (lengthAt_mem hpos)
  rw [reverseBits_div_pow hle, reverseBits_eq_iff (canonicalCode_lt hcomplete.kraftLe hpos)] at hcode
  rw [h.full symbol bits hpos hcode, Except.ok.injEq] at hentry
  rw [← hentry]
  exact hpos

/-- So does the table of a single code of length 1. -/
theorem Covering.consuming {build : Build} {table table' : HuffTable} {chain : List InfSymlen}
    {lengths : List ℕ} (h : Covering lengths)
    (hcodes : codesOf chain = sortedCodes lengths 1 maxCodeLength)
    (hlength : lengths.length ≤ infLastValidSymbol + 1)
    (hmake : infHuffMakeDecoder build table chain = .ok table') : table'.Consuming := by
  obtain ⟨made, hmade, hdecodes⟩ :=
    infHuffMakeDecoder_decodes build table hcodes h.kraftLe h.hasCode hlength
  cases hmake.symm.trans hmade
  rcases h with hcomplete | ⟨symbol, hsingle⟩
  · exact hdecodes.consuming hcomplete
  have hshort : ∀ element ∈ chain, element.huffmanLength = 1 := by
    intro element hmem
    have hpair : (element.symbol, element.huffmanLength) ∈ codesOf chain := List.mem_map_of_mem hmem
    rw [hcodes, sortedCodes_of_single hsingle, List.mem_singleton, Prod.mk.injEq] at hpair
    exact hpair.2
  have hentries := shortEntries_of_make build (ascends_of_codesOf hcodes)
    (fun element hmem ↦ (hshort element hmem).le.trans (by norm_num)) hmake
  intro bits entry hentry
  rcases hentries _ (Nat.mod_lt bits (show 256 > 0 by norm_num)) with hreset | ⟨element, hmem, hnew⟩
  · simp only [infHuffDecode, hreset, InfHuff.value, if_true, Except.ok.injEq] at hentry
    rw [← hentry]
    decide
  · simp only [infHuffDecode, hnew, InfHuff.value, if_true, Except.ok.injEq] at hentry
    rw [← hentry]
    exact (hshort element hmem).ge

/-! ### Decoders that consume -/

/-- What every pass finds besides: the decoders of a compressed block find nothing for free. -/
structure Metered (p : InfPass) : Prop extends Equipped p where
  literalConsuming : p.state.step = .loadDistanceDecoder → p.state.huffmanTableB.Consuming
  codesConsuming : InCodes p.state.step → ∃ literal distance,
    p.state.decoder p.state.literalDecoder = .ok literal ∧
      p.state.decoder p.state.distanceDecoder = .ok distance ∧
        literal.Consuming ∧ distance.Consuming

section Passes

variable {build : Build} {p : InfPass} {e : InfEffect}

/-- Another input and another window make no difference. -/
theorem Metered.facing (h : Metered p) (input : List UInt8) (free : ℕ) :
    Metered ⟨p.state, input, free⟩ where
  toEquipped := h.toEquipped.facing input free
  literalConsuming := h.literalConsuming
  codesConsuming := h.codesConsuming

/-- The table that a header step makes, if it gets so far. -/
theorem Equipped.makes_consuming (h : Equipped p) (hheader : CompleteHeader build p)
    {resetRepetitions : Bool} {table : InfCore → HuffTable}
    {store : InfSLList → HuffTable → InfCore → InfCore} {next : InfStep}
    (hp : (listing p (readSymlens build p) fun q ↦ do
      let (sorted, list) ← infSLListGetSorted q.state.sllist resetRepetitions
      let made ← infHuffMakeDecoder build (table q.state) sorted
      goto (withState q (store list made)) next) = .ok e) (hs : e.signal = .proceed) :
    ∃ list after list' made, made.Consuming ∧
      e = ⟨withState (withState (withState (withBitstream p after) fun st ↦
        { st with sllist := list }) (store list' made)) fun st ↦ { st with step := next }, [],
        .proceed⟩ := by
  rcases listing_ok hp with ⟨list, after, -, rfl⟩ | ⟨list, after, hread, hgo⟩
  · cases hs
  obtain ⟨sorted, hsort, hgo⟩ := bind_ok hgo
  obtain ⟨made, hmake, hgo⟩ := bind_ok hgo
  cases hgo
  obtain ⟨lengths, hsymbol, hrep, hlengths⟩ := hheader list after hread
  obtain ⟨_, hlength, -, -, hroom⟩ := h.toGuarded.readSymlens_spec hread
  have hcovering : Covering lengths := by
    rcases hlengths with hcomplete | ⟨-, hsingle⟩
    · exact .inl hcomplete
    · exact .inr hsingle
  have hfew : lengths.length ≤ infLastValidSymbol + 1 := by rwa [hsymbol, ← hlength]
  obtain ⟨chain, elements, hsorted, hcodes⟩ :=
    getSorted_spec hrep hcovering.kraftLe.1 hcovering.hasCode hfew resetRepetitions
  cases hsort.symm.trans hsorted
  exact ⟨list, after, _, made, hcovering.consuming hcodes hfew hmake, rfl⟩

theorem Equipped.loadLiteralDecoder_consuming (h : Equipped p) (hheader : CompleteHeader build p)
    (hstep : p.state.step = .loadLiteralDecoder) (hp : inflateStep build p = .ok e)
    (hs : e.signal = .proceed) : e.pass.state.huffmanTableB.Consuming := by
  rw [inflateStep_eq, hstep] at hp
  simp only [passOf, passLoadLiteralDecoder_eq h.toGuarded hstep] at hp
  obtain ⟨list, after, list', made, hmade, rfl⟩ :=
    @Equipped.makes_consuming build p e h hheader false (fun st ↦ st.huffmanTableB)
      (fun list table st ↦
        { st with sllist := list, huffmanTableB := table, literalDecoder := some .huffmanTableB })
      _ hp hs
  exact hmade

theorem Equipped.loadDistanceDecoder_consuming (h : Equipped p) (hheader : CompleteHeader build p)
    (hstep : p.state.step = .loadDistanceDecoder) (hp : inflateStep build p = .ok e)
    (hs : e.signal = .proceed) : e.pass.state.huffmanTableA.Consuming := by
  rw [inflateStep_eq, hstep] at hp
  simp only [passOf, passLoadDistanceDecoder_eq h.toGuarded hstep] at hp
  obtain ⟨list, after, list', made, hmade, rfl⟩ :=
    @Equipped.makes_consuming build p e h hheader true (fun st ↦ st.huffmanTableA)
      (fun list table st ↦
        { st with sllist := list, huffmanTableA := table, distanceDecoder := some .huffmanTableA })
      _ hp hs
  exact hmade

theorem Equipped.loadFixedHuffmanDecoders_consuming (h : Equipped p)
    (hstep : p.state.step = .loadFixedHuffmanDecoders) (hp : inflateStep build p = .ok e) :
    ∃ literal distance, e.pass.state.decoder e.pass.state.literalDecoder = .ok literal ∧
      e.pass.state.decoder e.pass.state.distanceDecoder = .ok distance ∧
        literal.Consuming ∧ distance.Consuming := by
  obtain ⟨literal, list₁, hliteral, hdecodes, hfresh⟩ := infHuffMakeFixedLiteralDecoder_spec build
    h.statics.literal (h.orderly.fresh (by simp [FillsList, hstep]))
  obtain ⟨distance, list₂, hdistance, hdecodes', -⟩ :=
    infHuffMakeFixedDistanceDecoder_spec build h.statics.distance hfresh
  rw [inflateStep_eq, hstep] at hp
  simp only [passOf, Muzic.passLoadFixedHuffmanDecoders, hliteral, hdistance, bind, Except.bind] at hp
  cases hp
  obtain ⟨hcomplete, hcomplete'⟩ := complete_fixedLengths
  exact ⟨literal, distance, rfl, rfl, hdecodes.consuming hcomplete, hdecodes'.consuming hcomplete'⟩

/-- What a pass leaves is metered again. -/
theorem Metered.step (h : Metered p) (hheader : CompleteHeader build p)
    (hp : inflateStep build p = .ok e) : Metered e.pass := by
  have hturn := turn_inflateStep hp
  refine ⟨h.toEquipped.step hheader hp, fun hnext ↦ ?_, fun hnext ↦ ?_⟩
  · by_cases hs : e.signal = .proceed
    · rw [hs] at hturn
      have hstep := (previousStep hturn.nextStep).2.2.2.1 hnext
      exact h.toEquipped.loadLiteralDecoder_consuming hheader hstep hp hs
    · rcases (show e.pass.state.step = p.state.step ∨ e.pass.state.step = .fatalError from
        hturn.stays hs) with hsame | hfatal
      · rw [hsame] at hnext
        rw [(h.toEquipped.passLoadDistanceDecoder hheader hnext hp).2.1]
        exact h.literalConsuming hnext
      · rw [hfatal] at hnext
        cases hnext
  · have hkeep : InCodes p.state.step → ∃ literal distance,
        e.pass.state.decoder e.pass.state.literalDecoder = .ok literal ∧
          e.pass.state.decoder e.pass.state.distanceDecoder = .ok distance ∧
            literal.Consuming ∧ distance.Consuming := by
      intro hbefore
      obtain ⟨hsame, hsame'⟩ := decoders_inCodes hp hbefore
      rw [hsame, hsame']
      exact h.codesConsuming hbefore
    by_cases hs : e.signal = .proceed
    · rw [hs] at hturn
      rcases (previousStep hturn.nextStep).2.2.2.2 hnext with hbefore | hfixed | hlast
      · exact hkeep hbefore
      · exact h.toEquipped.loadFixedHuffmanDecoders_consuming hfixed hp
      · obtain ⟨-, hB, hpointer, -, hmade⟩ :=
          h.toEquipped.passLoadDistanceDecoder hheader hlast hp
        rw [hpointer, (hmade hs).2, h.literalDecoder hlast]
        exact ⟨e.pass.state.huffmanTableB, e.pass.state.huffmanTableA, rfl, rfl,
          hB ▸ h.literalConsuming hlast,
          h.toEquipped.loadDistanceDecoder_consuming hheader hlast hp hs⟩
    · rcases (show e.pass.state.step = p.state.step ∨ e.pass.state.step = .fatalError from
        hturn.stays hs) with hsame | hfatal
      · rw [hsame] at hnext
        exact hkeep hnext
      · rw [hfatal] at hnext
        simp [InCodes] at hnext

/-! ### What the bits pay for -/

/-- The bytes that the code words read so far have paid for. -/
def prepaid (st : InfCore) : ℕ :=
  match st.step with
  | .readLiteralOrLength2 | .readLengthBits | .readDistance => 129
  | .readDistanceBits => 258
  | .outputSequence => st.sequenceLen
  | _ => 0

/-- The bytes that the state and the bits ahead can pay for. -/
def budget (p : InfPass) : ℕ := prepaid p.state + 129 * (bitstreamOf p).amount

/-- A pass that stores nothing needs to look at its reader and at the price of its step only. -/
theorem budget_le {q : InfPass} (hamount : (bitstreamOf q).amount ≤ (bitstreamOf p).amount)
    (hprepaid : prepaid q.state ≤ prepaid p.state) : ([] : List UInt8).length + budget q ≤ budget p := by
  simp only [budget, List.length_nil]
  omega

/-- The steps in which nothing has been paid. -/
theorem prepaid_of_step {st : InfCore} (hstep : st.step ∉ [.readLiteralOrLength2, .readLengthBits,
    .readDistance, .readDistanceBits, .outputSequence]) : prepaid st = 0 := by
  unfold prepaid
  split <;> simp_all

theorem pays_reading {α : Type} {read : Except Fault (Option α × InfBS)}
    {next : α → InfPass → Except Fault InfEffect}
    (hread : ∀ result after, read = .ok (result, after) → after.amount ≤ (bitstreamOf p).amount)
    (hnext : ∀ value after, read = .ok (some value, after) → next value (withBitstream p after) = .ok e →
      e.stored.length + budget e.pass ≤ budget p)
    (hp : reading p read next = .ok e) : e.stored.length + budget e.pass ≤ budget p := by
  rcases reading_ok hp with ⟨after, hnone, rfl⟩ | ⟨value, after, hsome, hgo⟩
  · exact budget_le (hread _ _ hnone) le_rfl
  · exact hnext value after hsome hgo

/-- The steps that read a dynamic header pay for nothing. -/
theorem pays_header {read : Except Fault (Bool × InfSLList × InfBS)} {resetRepetitions : Bool}
    {table : InfCore → HuffTable} {store : InfSLList → HuffTable → InfCore → InfCore} {next : InfStep}
    (hread : ∀ done list after, read = .ok (done, list, after) →
      after.amount ≤ (bitstreamOf p).amount)
    (hsize : ∀ list made st, (store list made st).size = st.size)
    (hnext : next ∉ [.readLiteralOrLength2, .readLengthBits, .readDistance, .readDistanceBits,
      .outputSequence])
    (hp : (listing p read fun q ↦ do
      let (sorted, list) ← infSLListGetSorted q.state.sllist resetRepetitions
      let made ← infHuffMakeDecoder build (table q.state) sorted
      goto (withState q (store list made)) next) = .ok e) :
    e.stored.length + budget e.pass ≤ budget p := by
  rcases listing_ok hp with ⟨list, after, hsuspends, rfl⟩ | ⟨list, after, hdone, hgo⟩
  · exact budget_le (hread _ _ _ hsuspends) le_rfl
  · obtain ⟨sorted, -, hgo⟩ := bind_ok hgo
    obtain ⟨made, -, hgo⟩ := bind_ok hgo
    cases hgo
    refine budget_le ?_ (by rw [prepaid_of_step hnext]; exact Nat.zero_le _)
    have hamount := hread _ _ _ hdone
    simp only [withState, withBitstream, bitstreamOf, InfBS.amount, hsize] at hamount ⊢
    exact hamount

/-- No pass stores more than it takes from the budget. -/
theorem Metered.pays (h : Metered p) (hp : inflateStep build p = .ok e) :
    e.stored.length + budget e.pass ≤ budget p := by
  have hbits : ∀ {count : ℕ} result after, (bitstreamOf p).readBits count = .ok (result, after) →
      after.amount ≤ (bitstreamOf p).amount := fun _ _ hread ↦ InfBS.readBits_amount_le hread
  have hencoded : ∀ {decoder : HuffTable} result after,
      (bitstreamOf p).readEncodedBits decoder = .ok (result, after) →
        after.amount ≤ (bitstreamOf p).amount := fun _ _ hread ↦ InfBS.readEncodedBits_amount hread
  rw [inflateStep_eq] at hp
  cases hstep : p.state.step <;> simp only [hstep, passOf] at hp
  case start => cases hp; exact budget_le le_rfl (by simp [prepaid, withState, hstep])
  case fatalError | «end» => cases hp; exact budget_le le_rfl le_rfl
  case processNextBlock =>
    rw [passProcessNextBlock] at hp
    split at hp <;> cases hp <;> exact budget_le le_rfl (by simp [prepaid, withState])
  case readBlockHeader =>
    refine pays_reading hbits (fun temp after hread hgo ↦ ?_) hp
    have hamount := hbits _ _ hread
    split at hgo <;> cases hgo <;> exact budget_le hamount (by simp [prepaid, withState])
  case processUncompressedBlock =>
    refine pays_reading (fun _ _ hread ↦ InfBS.readDWord_amount_le hread)
      (fun temp after hread hgo ↦ ?_) hp
    have hamount := InfBS.readDWord_amount_le hread
    simp only at hgo
    split at hgo <;> cases hgo <;> exact budget_le hamount (by simp [prepaid, withState])
  case outputUncompressedBlock =>
    obtain ⟨st, input, free⟩ := p
    simp only at hstep
    rw [passOutputUncompressedBlock_eq] at hp
    have htaken : (input.take (min st.sequenceLen free)).length ≤ input.length :=
      List.length_take_le' _ _
    split at hp
    · cases hp
    · simp only at hp
      split at hp
      · cases hp
        simp only [budget, prepaid, hstep, bitstreamOf, InfBS.amount, List.length_nil]
        omega
      · split at hp <;> cases hp <;>
          simp only [budget, prepaid, hstep, bitstreamOf, InfBS.amount, List.length_drop,
            List.length_take] <;> omega
  case loadFixedHuffmanDecoders =>
    obtain ⟨literal, -, hp⟩ := bind_ok hp
    obtain ⟨distance, -, hp⟩ := bind_ok hp
    cases hp
    exact budget_le le_rfl (by simp [prepaid, withState])
  case loadDynamicHuffmanDecoders =>
    refine pays_reading hbits (fun symcount after hread hgo ↦ ?_) hp
    cases hgo
    exact budget_le (hbits _ _ hread) (by simp [prepaid, withState])
  case loadFrontDecoder =>
    exact @pays_header build p e _ true (fun st ↦ st.huffmanTableA) (fun list table st ↦
      { st with sllist := list, huffmanTableA := table, frontDecoder := some .huffmanTableA }) _
      (fun _ _ _ hread ↦ add3BitSymlens_amount_le hread) (fun _ _ _ ↦ rfl) (by decide) hp
  case loadLiteralDecoder =>
    obtain ⟨decoder, -, hp⟩ := bind_ok hp
    exact @pays_header build p e _ false (fun st ↦ st.huffmanTableB) (fun list table st ↦
      { st with sllist := list, huffmanTableB := table, literalDecoder := some .huffmanTableB }) _
      (fun _ _ _ hread ↦ encodedSymlensLoop_amount_le _ _ _ hread) (fun _ _ _ ↦ rfl) (by decide) hp
  case loadDistanceDecoder =>
    obtain ⟨decoder, -, hp⟩ := bind_ok hp
    exact @pays_header build p e _ true (fun st ↦ st.huffmanTableA) (fun list table st ↦
      { st with sllist := list, huffmanTableA := table, distanceDecoder := some .huffmanTableA }) _
      (fun _ _ _ hread ↦ encodedSymlensLoop_amount_le _ _ _ hread) (fun _ _ _ ↦ rfl) (by decide) hp
  case processCompressedBlock | readLiteralOrLength =>
    obtain ⟨literal, _, hliteral, -, hconsuming, -⟩ := h.codesConsuming (by simp [InCodes, hstep])
    obtain ⟨decoder, hdecoder, hp⟩ := bind_ok hp
    cases hliteral.symm.trans hdecoder
    refine pays_reading hencoded (fun symbol after hread hgo ↦ ?_) hp
    have hless := InfBS.readEncodedBits_lt hconsuming hread
    cases hgo
    simp only [budget, prepaid, hstep, withState, withBitstream, bitstreamOf, InfBS.amount,
      List.length_nil] at hless ⊢
    omega
  case readLiteralOrLength2 =>
    obtain ⟨st, input, free⟩ := p
    simp only at hstep
    rw [passReadLiteralOrLength2_eq] at hp
    split at hp
    · split at hp
      · cases hp
        exact budget_le le_rfl le_rfl
      · split at hp
        · cases hp
        · cases hp
          simp only [budget, prepaid, hstep, bitstreamOf, InfBS.amount, List.length_singleton]
          omega
    · split at hp
      · cases hp
        exact budget_le le_rfl (by simp [prepaid])
      · split at hp <;> cases hp <;> exact budget_le le_rfl (by simp [prepaid, hstep])
  case readLengthBits =>
    obtain ⟨extraBits, -, hp⟩ := bind_ok hp
    obtain ⟨start, -, hp⟩ := bind_ok hp
    refine pays_reading hbits (fun temp after hread hgo ↦ ?_) hp
    obtain ⟨_, -, hgo⟩ := bind_ok hgo
    cases hgo
    exact budget_le (hbits _ _ hread) (by simp [prepaid, withState, hstep])
  case readDistance =>
    obtain ⟨_, distance, -, hdistance, -, hconsuming⟩ := h.codesConsuming (by simp [InCodes, hstep])
    obtain ⟨decoder, hdecoder, hp⟩ := bind_ok hp
    cases hdistance.symm.trans hdecoder
    refine pays_reading hencoded (fun symbol after hread hgo ↦ ?_) hp
    have hless := InfBS.readEncodedBits_lt hconsuming hread
    simp only at hgo
    split at hgo <;> cases hgo <;>
      simp only [budget, prepaid, hstep, withState, withBitstream, bitstreamOf, InfBS.amount,
        List.length_nil] at hless ⊢ <;> omega
  case readDistanceBits =>
    have hlength : p.state.sequenceLen ≤ 258 := (h.inRange.length (.inr (.inl hstep))).2
    obtain ⟨extraBits, -, hp⟩ := bind_ok hp
    obtain ⟨start, -, hp⟩ := bind_ok hp
    refine pays_reading hbits (fun temp after hread hgo ↦ ?_) hp
    obtain ⟨_, -, hgo⟩ := bind_ok hgo
    cases hgo
    refine budget_le (hbits _ _ hread) ?_
    simpa only [prepaid, withState, withBitstream, hstep] using hlength
  case outputSequence =>
    have hptr := h.inRange.ptr
    obtain ⟨st, input, free⟩ := p
    simp only at hstep
    rw [passOutputSequence_eq] at hp
    split at hp
    · cases hp
    · next succ bytes outputBuf hread =>
      have hlength := (infOutbufRead_length hptr hread).1
      simp only at hp
      split at hp
      · cases hp
        simp only [budget, prepaid, hstep, bitstreamOf, InfBS.amount]
        omega
      · split at hp <;> cases hp <;>
          simp only [budget, prepaid, hstep, bitstreamOf, InfBS.amount] <;> omega
  case adler32Checksum =>
    obtain ⟨st, input, free⟩ := p
    simp only at hstep
    rw [passAdler32Checksum_eq] at hp
    split at hp <;> cases hp <;>
      simp only [budget, prepaid, hstep, bitstreamOf, InfBS.amount, List.length_drop,
        List.length_nil] <;> omega

/-! ### The loop and the calls -/

theorem Metered.of_reaches {q : InfPass} {stored : List UInt8}
    (hreach : Reaches (inflateStep build) p stored q) :
    Metered p → (∀ stored q, Reaches (inflateStep build) p stored q → CompleteHeader build q) →
      Metered q := by
  induction hreach with
  | refl p => exact fun h _ ↦ h
  | step hp hs _ ih =>
    exact fun h hheaders ↦ ih (h.step (hheaders _ _ (Reaches.refl _)) hp)
      fun stored q hq ↦ hheaders _ q (Reaches.step hp hs hq)

/-- A run pays from the budget that it is entered with. -/
theorem Metered.runLoop (h : Metered p) (hlive : Live p.state)
    (hheaders : ∀ stored q, Reaches (inflateStep build) p stored q → CompleteHeader build q)
    (hloop : runLoop build p = .ok e) :
    Metered e.pass ∧ e.stored.length + budget e.pass ≤ budget p := by
  have hruns := runs_runLoop build hlive
  have hkeep : ∀ (p : InfPass) (e : InfEffect),
      (Metered p ∧ ∀ stored q, Reaches (inflateStep build) p stored q → CompleteHeader build q) →
        inflateStep build p = .ok e → e.signal = .proceed → Metered e.pass ∧
          ∀ stored q, Reaches (inflateStep build) e.pass stored q → CompleteHeader build q :=
    fun p e hinv hp hs ↦ ⟨hinv.1.step (hinv.2 _ _ (Reaches.refl p)) hp,
      fun stored q hq ↦ hinv.2 _ q (Reaches.step hp hs hq)⟩
  refine ⟨?_, hruns.pays hkeep (fun p e hinv hp ↦ hinv.1.pays hp) ⟨h, hheaders⟩ e hloop⟩
  exact Runs.invariant (fun e : InfEffect ↦ Metered e.pass) hkeep
    (fun p e hinv hp _ ↦ hinv.1.step (hinv.2 _ _ (Reaches.refl p)) hp) (fun _ _ hfinal ↦ hfinal) hruns
    ⟨h, hheaders⟩ e hloop

end Passes

/-- What is left to pay for between two calls is covered by what was taken in. -/
structure Covered (taken stored : ℕ) (st : InfState) : Prop where
  metered : Metered ⟨st.core, [], 0⟩
  paid : stored + budget ⟨st.core, [], 0⟩ ≤ 1032 * taken

section Calls

variable {taken stored : ℕ} {memory : Memory} {strm strm' : ZStream} {st : InfState}
  {behind : ℕ → UInt8} {r : InflateResult}

/-- Every byte ahead can pay for 1032. -/
theorem budget_facing (st : InfCore) (input : List UInt8) (free : ℕ) :
    budget ⟨st, input, free⟩ = budget ⟨st, [], 0⟩ + 1032 * input.length := by
  simp only [budget, bitstreamOf, InfBS.amount, List.length_nil]
  ring

/-- One call pays for what it stores. -/
theorem Covered.call (h : Covered taken stored st) (hserved : ServedState strm st)
    (hhands : HandsOver strm st strm')
    (hresult : inflate ⟨true, some behind⟩ memory strm' st = .ok r)
    (hheaders : ∀ p, InflateCall.Meets ⟨true, some behind⟩ ⟨memory, strm', st, .ok r⟩ p →
      CompleteHeader ⟨true, some behind⟩ p) :
    stored + r.stored.length ≤ 1032 * (taken + (strm'.availIn - r.strm.availIn)) ∧
      (r.code = .ok →
        Covered (taken + (strm'.availIn - r.strm.availIn)) (stored + r.stored.length) r.state) := by
  have hpaid := h.paid
  have hpositive := hhands.availIn
  have hlt := hhands.availIn_lt
  rcases @ServedState.enters _ _ _ behind hserved hhands memory (.ok r) with
    ⟨-, r', hr', hempty, hcode⟩ | ⟨strm₁, st₁, henters, hcore, hend, hle, hout⟩
  · cases hresult.symm.trans hr'
    have hzero : r.stored.length = 0 := by rw [hempty]; rfl
    refine ⟨by omega, fun hok ↦ ?_⟩
    rcases hcode with herror | ⟨-, -, hsame, -⟩
    · cases herror.symm.trans hok
    · refine ⟨by rw [hsame]; exact h.metered, ?_⟩
      rw [hsame]
      omega
  · have hlive : Live st₁.core := by rw [hcore]; exact hserved.live
    have hcall := @InflateCall.enters_eq _ ⟨true, some behind⟩ _ _ _ henters hpositive
    rw [hresult] at hcall
    obtain ⟨e, hloop, hclose⟩ := decodeBuffer_ok hcall.symm
    obtain ⟨used, htook⟩ := decodeBuffer_took hcall.symm hlive (by omega) (by omega) (by omega)
    have hmetered : Metered (entryPass memory strm₁ st₁) := by
      rw [entryPass, hcore]
      exact h.metered.facing _ _
    obtain ⟨hafter, hpays⟩ := hmetered.runLoop hlive
      (fun stored q hreach ↦ hheaders q ⟨_, _, _, stored, henters, hreach⟩) hloop
    have hleft := htook.availIn
    have hwithin := htook.within
    have hptr := htook.inputPtr
    have hunread : e.pass.input.length + used = strm₁.availIn := by
      have hruns := runs_runLoop ⟨true, some behind⟩ (p := entryPass memory strm₁ st₁) hlive
      obtain ⟨front, hfront⟩ := hruns.suffix (resumable_inflateStep _) e hloop
      have hsuffix := congrArg List.length hfront
      rw [entryPass, Memory.length_bytes, List.length_append] at hsuffix
      rw [hclose] at hptr
      simp only [closeCall] at hptr
      omega
    have hbefore : budget (entryPass memory strm₁ st₁) =
        budget ⟨st.core, [], 0⟩ + 1032 * strm₁.availIn := by
      rw [entryPass, hcore, budget_facing, Memory.length_bytes, hend, Nat.add_sub_cancel_left]
    have hbehind : budget e.pass = budget ⟨e.pass.state, [], 0⟩ + 1032 * e.pass.input.length :=
      budget_facing _ _ _
    have hstored : r.stored = e.stored := by rw [hclose]; rfl
    have hstate : r.state.core = e.pass.state := by rw [hclose]; rfl
    have htotal : stored + r.stored.length + budget ⟨r.state.core, [], 0⟩ ≤
        1032 * (taken + (strm'.availIn - r.strm.availIn)) := by
      rw [hstored, hstate]
      omega
    refine ⟨by omega, fun _ ↦ ⟨?_, htotal⟩⟩
    rw [hstate]
    exact hafter.facing [] 0

end Calls

end ZephyrThrift.Muzic
