import ZephyrThrift.Foundation.CompleteCode
import ZephyrThrift.Muzic.Assertions
import ZephyrThrift.Muzic.OutputPieces

/-!
# Every call ends for a reason

Where the headers of dynamic blocks carry complete codes, every look-up finds an entry (`Total`), and no
pass of the decoder faults, on any input and in any division into calls (`exists_inflateStep`). So every
call ends: with its input used up or its window full, at the end of the stream, or with an error in the
stream (`inflate_ends`).
-/

set_option autoImplicit false
set_option relaxedAutoImplicit false

namespace ZephyrThrift.Muzic

open Foundation

/-! ### Look-ups that cannot fail -/

/-- Every look-up finds an entry, of a length that a reader can load. -/
def HuffTable.Total (table : HuffTable) : Prop :=
  ∀ bits, ∃ entry, infHuffDecode table bits = .ok entry ∧ entry.length ≤ infInvalidLength

/-- The table of a complete code has an entry for whatever the buffer holds. -/
theorem Decodes.total {table : HuffTable} {lengths : List ℕ} (h : Decodes table lengths)
    (hcomplete : Complete maxCodeLength lengths) : table.Total := by
  intro bits
  obtain ⟨symbol, hpos, hcode⟩ := hcomplete.exists_code (reverseBits_lt maxCodeLength bits)
  have hle := hcomplete.short _ (lengthAt_mem hpos)
  rw [reverseBits_div_pow hle, reverseBits_eq_iff (canonicalCode_lt hcomplete.kraftLe hpos)] at hcode
  exact ⟨_, h.full symbol bits hpos hcode, hle.trans (by decide)⟩

/-- Code lengths whose decoder answers every look-up: those of a complete code, or a single code of
length 1. -/
def Covering (lengths : List ℕ) : Prop :=
  Complete maxCodeLength lengths ∨ ∃ symbol, presentCodes lengths = [(symbol, 1)]

theorem le_one_of_single {lengths : List ℕ} {symbol : ℕ} (h : presentCodes lengths = [(symbol, 1)]) :
    ∀ length ∈ lengths, length ≤ 1 := by
  intro length hmem
  obtain ⟨place, hlt, rfl⟩ := List.mem_iff_getElem.mp hmem
  by_contra hlong
  have hat : lengthAt lengths place = lengths[place] := List.getD_eq_getElem _ _ hlt
  have hpresent : (place, lengths[place]) ∈ presentCodes lengths :=
    mem_presentCodes.mpr ⟨hlt, by rw [hat]; omega, hat⟩
  rw [h, List.mem_singleton, Prod.mk.injEq] at hpresent
  omega

theorem sortedCodes_of_single {lengths : List ℕ} {symbol : ℕ}
    (h : presentCodes lengths = [(symbol, 1)]) :
    sortedCodes lengths 1 maxCodeLength = [(symbol, 1)] := by
  rw [← sortedPairs_presentCodes, h]
  rfl

theorem Covering.kraftLe {lengths : List ℕ} (h : Covering lengths) : KraftLe maxCodeLength lengths := by
  rcases h with hcomplete | ⟨symbol, hsingle⟩
  · exact hcomplete.kraftLe
  · have hle : ∀ length ∈ lengths, length ≤ maxCodeLength := fun length hmem ↦
      (le_one_of_single hsingle length hmem).trans (by decide)
    refine ⟨hle, ?_⟩
    rw [← spanOf_sortedCodes _ hle, sortedCodes_of_single hsingle, spanOf_cons, spanOf_nil]
    exact (show 2 ^ 14 + 0 ≤ 2 ^ 15 by norm_num)

theorem Covering.hasCode {lengths : List ℕ} (h : Covering lengths) : HasCode lengths := by
  rcases h with hcomplete | ⟨symbol, hsingle⟩
  · exact hcomplete.hasCode
  · by_contra hnone
    rw [presentCodes_eq_nil hnone] at hsingle
    cases hsingle

/-- The two functions that every loader ends with, on such lengths. -/
theorem Covering.sortAndMake (build : Build) (table : HuffTable) {list : InfSLList}
    {lengths : List ℕ} (h : Covering lengths) (hrep : Represents list (presentCodes lengths))
    (hlength : lengths.length ≤ infLastValidSymbol + 1) (resetRepetitions : Bool) :
    ∃ chain elements table',
      infSLListGetSorted list resetRepetitions =
        .ok (chain, list.restarted resetRepetitions elements) ∧
      infHuffMakeDecoder build table chain = .ok table' ∧ table'.Total := by
  obtain ⟨chain, elements, hsorted, hcodes⟩ :=
    getSorted_spec hrep h.kraftLe.1 h.hasCode hlength resetRepetitions
  obtain ⟨table', hmake, hdecodes⟩ :=
    infHuffMakeDecoder_decodes build table hcodes h.kraftLe h.hasCode hlength
  refine ⟨chain, elements, table', hsorted, hmake, ?_⟩
  rcases h with hcomplete | ⟨symbol, hsingle⟩
  · exact hdecodes.total hcomplete
  · have hshort : ∀ element ∈ chain, element.huffmanLength = 1 := by
      intro element hmem
      have hpair : (element.symbol, element.huffmanLength) ∈ codesOf chain :=
        List.mem_map_of_mem hmem
      rw [hcodes, sortedCodes_of_single hsingle, List.mem_singleton, Prod.mk.injEq] at hpair
      exact hpair.2
    have hentries := shortEntries_of_make build (ascends_of_codesOf hcodes)
      (fun element hmem ↦ (hshort element hmem).le.trans (by norm_num)) hmake
    intro bits
    refine ⟨table' (bits % 256), ?_, ?_⟩ <;>
      rcases hentries _ (Nat.mod_lt bits (show 256 > 0 by norm_num)) with
        hreset | ⟨element, hmem, hnew⟩
    · simp only [infHuffDecode, hreset, InfHuff.value, if_true]
    · simp only [infHuffDecode, hnew, InfHuff.value, if_true]
    · rw [hreset]
      exact le_rfl
    · rw [hnew]
      exact (hshort element hmem).le.trans (by decide)

theorem complete_fixedLengths : Complete maxCodeLength fixedLiteralLengths ∧
    Complete maxCodeLength fixedDistanceLengths := by
  refine ⟨⟨kraftLe_fixedLiteralLengths.1, ?_⟩, ⟨kraftLe_fixedDistanceLengths.1, ?_⟩⟩ <;> decide +kernel

/-! ### Readers that cannot fail -/

namespace InfBS

theorem exists_readDWord (behind : Option (ℕ → UInt8)) (bitstream : InfBS) :
    ∃ result, bitstream.readDWord ⟨true, behind⟩ = .ok result := by
  obtain ⟨enough, after, hload⟩ := exists_loadUpTo (le_refl 32) bitstream.input
    (bitstream.bits >>> (bitstream.size % 8)) (bitstream.size - bitstream.size % 8)
  simp only [readDWord, hload]
  cases enough <;> exact ⟨_, rfl⟩

theorem exists_takeCode {data : InfHuff} (h : data.length ≤ infInvalidLength) (bitstream : InfBS) :
    ∃ result, takeCode data bitstream = .ok result := by
  have hlt : data.length < 32 := h.trans_lt (by decide)
  exact ⟨_, by simp only [takeCode, dropBits, if_pos hlt]; rfl⟩

theorem exists_readEncodedLoop {table : HuffTable} (h : table.Total) (input : List UInt8) :
    ∀ bits size, ∃ result, readEncodedLoop table bits size input = .ok result := by
  induction input with
  | nil =>
    intro bits size
    obtain ⟨entry, hdecode, hle⟩ := h bits
    simp only [readEncodedLoop_eq, hdecode]
    split
    · exact ⟨_, rfl⟩
    · exact exists_takeCode hle _
  | cons byte input ih =>
    intro bits size
    obtain ⟨entry, hdecode, hle⟩ := h bits
    rw [readEncodedLoop_eq]
    simp only [hdecode]
    split
    · have hlt : size < 32 := (‹size < entry.length›.trans_le hle).trans (by decide)
      simp only [loadByte, if_pos hlt]
      exact ih _ _
    · exact exists_takeCode hle _

theorem exists_readEncodedBits {table : HuffTable} (h : table.Total) (bitstream : InfBS) :
    ∃ result, bitstream.readEncodedBits table = .ok result := by
  rw [readEncodedBits]
  split
  · split
    · exact ⟨_, rfl⟩
    · simp only [loadByte, if_pos (show 0 < 32 by norm_num)]
      exact exists_readEncodedLoop h _ _ _
  · exact exists_readEncodedLoop h _ _ _

end InfBS

section Lists

variable {list : InfSLList} {lengths : List ℕ}

theorem exists_runCommand (list : InfSLList) (bitstream : InfBS) :
    ∃ result, runCommand list bitstream = .ok result := by
  have hrepetitions : ∀ {extraBits base length : ℕ}, extraBits ≤ 7 →
      ∃ result, readRepetitions list bitstream extraBits base length = .ok result := by
    intro extraBits base length hextra
    obtain ⟨⟨number, after⟩, hread⟩ :=
      bitstream.exists_readBits (show extraBits ≤ 32 from hextra.trans (by norm_num))
    simp only [readRepetitions, hread]
    cases number <;> exact ⟨_, rfl⟩
  rw [runCommand]
  split
  · exact hrepetitions (by norm_num)
  · exact hrepetitions (by norm_num)
  · exact hrepetitions le_rfl
  · exact ⟨_, rfl⟩

theorem exists_readCommand {table : HuffTable} (h : table.Total) (list : InfSLList)
    (bitstream : InfBS) : ∃ result, readCommand table list bitstream = .ok result := by
  rw [readCommand]
  split
  · obtain ⟨⟨command, after⟩, hread⟩ := bitstream.exists_readEncodedBits h
    simp only [hread]
    cases command with
    | none => exact ⟨_, rfl⟩
    | some command => exact exists_runCommand _ _
  · exact exists_runCommand _ _

/-- The outer loop, with as many turns as it may need. -/
theorem Gathering.exists_encodedSymlensLoop (build : Build) {table : HuffTable}
    (htable : FrontTable table) (htotal : table.Total) {numberOfSymlens : ℕ}
    (hmax : numberOfSymlens ≤ infLastValidSymbol + 1) (fuel : ℕ) :
    ∀ (list : InfSLList) (lengths : List ℕ) (bitstream : InfBS), Gathering list lengths →
      lengths.length ≤ numberOfSymlens → turnsLeft numberOfSymlens list ≤ fuel →
        ∃ result, Muzic.encodedSymlensLoop build numberOfSymlens table fuel list bitstream =
          .ok result := by
  induction fuel with
  | zero =>
    intro list lengths bitstream _ _ hturns
    rw [turnsLeft] at hturns
    split at hturns <;> omega
  | succ fuel ih =>
    intro list lengths bitstream h hle hturns
    rw [Muzic.encodedSymlensLoop]
    by_cases hmore : list.symbol < numberOfSymlens
    · obtain ⟨list₁, lengths₁, hadd, h₁, hle₁, hadded⟩ := h.addRepetitions build hmax hle
      simp only [if_pos hmore, hadd]
      by_cases hmore₁ : list₁.symbol < numberOfSymlens
      · have hassert : build.assert (list₁.repetitions == 0) = .ok () := by
          rw [hadded.done hmore₁]
          exact Build.assert_true build
        obtain ⟨⟨complete, list₂, after⟩, hread⟩ := exists_readCommand htotal list₁ bitstream
        simp only [if_pos hmore₁, hassert, hread]
        cases complete with
        | false => exact ⟨_, rfl⟩
        | true =>
          obtain ⟨hsymbol, hpositive, -⟩ := readCommand_true hread
          have hlower := turnsLeft_lt hadded hmore hsymbol hpositive
          exact ih _ _ _ (h₁.readCommand htable hread) hle₁ (by omega)
      · exact ⟨_, if_neg hmore₁⟩
    · exact ⟨_, if_neg hmore⟩

end Lists

/-! ### Copies that cannot fail -/

section Ring

variable {ndebug : Bool} {behind : ℕ → UInt8}

theorem exists_copyLoop (count : ℕ) :
    ∀ (sequencePtr : ℕ) {infbuf : InfOutbuf}, infbuf.ptr ≤ infOutbufSize →
      ∃ result, copyLoop ⟨ndebug, some behind⟩ count sequencePtr infbuf = .ok result := by
  have hread : ∀ (infbuf : InfOutbuf) (offset : ℕ), ∃ c,
      readRing ⟨ndebug, some behind⟩ infbuf offset = .ok c := by
    intro infbuf offset
    rw [readRing]
    split <;> exact ⟨_, rfl⟩
  induction count with
  | zero => exact fun _ _ _ ↦ ⟨_, rfl⟩
  | succ count ih =>
    intro sequencePtr infbuf hptr
    obtain ⟨c, hfirst⟩ := hread infbuf sequencePtr
    obtain ⟨dest, hsecond⟩ := hread (ringPut infbuf c) sequencePtr
    obtain ⟨rest, hrest⟩ := ih (sequencePtr + 1) (ringPut_ptr_le infbuf c)
    simp only [copyLoop, hfirst, infOutbufPutc_eq _ hptr, hsecond, hrest, bind, Except.bind]
    exact ⟨_, rfl⟩

/-- Where reads behind the ring return some byte, a match within the reach of the ring is copied or
refused. -/
theorem exists_infOutbufRead {infbuf : InfOutbuf} (hptr : infbuf.ptr ≤ infOutbufSize) {distance : ℕ}
    (hdistance : distance ≤ infOutbufSize) (count : ℕ) :
    ∃ result, infOutbufRead ⟨ndebug, some behind⟩ infbuf distance count = .ok result := by
  rw [infOutbufRead]
  split
  · rw [if_neg (by omega)]
    simp only
    split
    · exact ⟨_, rfl⟩
    · split
      · exact ⟨_, rfl⟩
      · obtain ⟨copied, hcopy⟩ := @exists_copyLoop ndebug behind
          (count - (infOutbufSize - (infbuf.ptr + infOutbufSize - distance))) 0 _
          (infOutbufWrite_ptr_le hptr (ringBytes infbuf (infbuf.ptr + infOutbufSize - distance)
            (infOutbufSize - (infbuf.ptr + infOutbufSize - distance))))
        simp only [hcopy]
        exact ⟨_, rfl⟩
  · obtain ⟨copied, hcopy⟩ := @exists_copyLoop ndebug behind count (infbuf.ptr - distance) _ hptr
    simp only [hcopy]
    exact ⟨_, rfl⟩

end Ring

/-! ### Passes that cannot fail -/

/-- What a step of a dynamic header does first: it reads the code lengths of an alphabet, as far as the
input goes. -/
def readSymlens (build : Build) (p : InfPass) : Except Fault (Bool × InfSLList × InfBS) :=
  match p.state.step with
  | .loadFrontDecoder =>
    infSLListAdd3BitSymlens build p.state.sllist (bitstreamOf p) (symlensOf p.state)
  | .loadLiteralDecoder | .loadDistanceDecoder => do
    let decoder ← p.state.decoder p.state.frontDecoder
    infSLListAddEncodedSymlens build p.state.sllist (bitstreamOf p) (symlensOf p.state) decoder
  | _ => .ok (false, p.state.sllist, bitstreamOf p)

/-- The header that a pass reads carries complete codes: when it has all lengths of an alphabet, their
Kraft sum is exactly 1, or there is a single distance code, of length 1. -/
def CompleteHeader (build : Build) (p : InfPass) : Prop :=
  ∀ list after, readSymlens build p = .ok (true, list, after) →
    ∃ lengths, lengths.length = list.symbol ∧ Represents list (presentCodes lengths) ∧
      (Complete maxCodeLength lengths ∨
        p.state.step = .loadDistanceDecoder ∧ ∃ symbol, presentCodes lengths = [(symbol, 1)])

/-- What every pass finds, if the headers carry complete codes: tables that answer every look-up. -/
structure Equipped (p : InfPass) : Prop extends Guarded p where
  statics : SoundStatics p.state.statics
  frontTotal : p.state.step = .loadLiteralDecoder ∨ p.state.step = .loadDistanceDecoder →
    p.state.huffmanTableA.Total
  literalTotal : p.state.step = .loadDistanceDecoder → p.state.huffmanTableB.Total
  codesTotal : InCodes p.state.step → ∃ literal distance,
    p.state.decoder p.state.literalDecoder = .ok literal ∧
      p.state.decoder p.state.distanceDecoder = .ok distance ∧ literal.Total ∧ distance.Total

section Passes

variable {build : Build} {p : InfPass} {e : InfEffect} {list : InfSLList} {after : InfBS}

/-- What the list of a header holds when all lengths were read, and that there was room for them. -/
theorem Guarded.readSymlens_spec (h : Guarded p)
    (hread : readSymlens build p = .ok (true, list, after)) :
    ∃ lengths, lengths.length = list.symbol ∧ Represents list (presentCodes lengths) ∧
      (∀ length ∈ lengths, length ≤ maxCodeLength) ∧ lengths.length ≤ infLastValidSymbol + 1 := by
  have hcount := symlensOf_le p.state
  have hgathers : p.state.step = .loadLiteralDecoder ∨ p.state.step = .loadDistanceDecoder →
      (do
        let decoder ← p.state.decoder p.state.frontDecoder
        infSLListAddEncodedSymlens build p.state.sllist (bitstreamOf p) (symlensOf p.state) decoder) =
          .ok (true, list, after) →
        ∃ lengths, lengths.length = list.symbol ∧ Represents list (presentCodes lengths) ∧
          (∀ length ∈ lengths, length ≤ maxCodeLength) ∧ lengths.length ≤ infLastValidSymbol + 1 := by
    intro hstep hread
    obtain ⟨hpointer, htable, lengths, hgathering, hlength⟩ := h.gathers hstep
    rw [hpointer] at hread
    obtain ⟨decoder, hdecoder, hread⟩ := bind_ok hread
    cases hdecoder
    obtain ⟨lengths', hgathered, hle⟩ := (Gathering.encodedSymlensLoop build htable hcount.1 _ _ _ _
      hgathering hlength).2 _ _ _ hread
    exact ⟨lengths', hgathered.symbol.symm, hgathered.represents, hgathered.lengths_le,
      hle.trans hcount.1⟩
  cases hstep : p.state.step <;> simp only [readSymlens, hstep] at hread
  case loadFrontDecoder =>
    obtain ⟨complete, list', after', hadd, -, hdone⟩ :=
      (h.front hstep).add3BitSymlens build (bitstreamOf p) (hcount.2 hstep)
    cases hread.symm.trans hadd
    obtain ⟨hsymbol, lengths, hrep, hlength, hlengths⟩ := hdone rfl
    exact ⟨lengths, hlength.trans hsymbol.symm, hrep,
      fun length hmem ↦ (hlengths length hmem).trans (by decide), by rw [hlength]; decide⟩
  case loadLiteralDecoder => exact hgathers (.inl hstep) hread
  case loadDistanceDecoder => exact hgathers (.inr hstep) hread
  all_goals cases hread

/-- A complete header gives a table that answers every look-up. -/
theorem CompleteHeader.makes (hheader : CompleteHeader build p) (h : Guarded p)
    (hread : readSymlens build p = .ok (true, list, after)) (resetRepetitions : Bool)
    (table : HuffTable) :
    ∃ chain elements table',
      infSLListGetSorted list resetRepetitions =
        .ok (chain, list.restarted resetRepetitions elements) ∧
      infHuffMakeDecoder build table chain = .ok table' ∧ table'.Total := by
  obtain ⟨lengths, hsymbol, hrep, hcodes⟩ := hheader list after hread
  have hcovering : Covering lengths := by
    rcases hcodes with hcomplete | ⟨-, hsingle⟩
    · exact .inl hcomplete
    · exact .inr hsingle
  obtain ⟨_, hlength, -, -, hroom⟩ := h.readSymlens_spec hread
  exact hcovering.sortAndMake build table hrep (by rw [hsymbol, ← hlength]; exact hroom)
    resetRepetitions

/-- The pairs in a list, in the order in which they came. -/
def InfSLList.codes (list : InfSLList) : List (ℕ × ℕ) :=
  (List.range list.elementIndex).map fun i ↦
    ((list.elements i).symbol, (list.elements i).huffmanLength)

theorem Represents.codes_eq {added : List (ℕ × ℕ)} (h : Represents list added) :
    list.codes = added := by
  refine List.ext_getElem (by rw [InfSLList.codes, List.length_map, List.length_range, h.index])
    fun i hi hadded ↦ ?_
  obtain ⟨hsymbol, hlength⟩ := h.element i hadded
  rw [List.getD_eq_getElem _ _ hadded] at hsymbol hlength
  simp only [InfSLList.codes, List.getElem_map, List.getElem_range, hsymbol, hlength]

theorem kraftSum_presentCodes (maxBits : ℕ) (lengths : List ℕ) :
    kraftSum maxBits lengths = ((presentCodes lengths).map fun code ↦ 2 ^ (maxBits - code.2)).sum := by
  induction lengths using List.reverseRecOn with
  | nil => rfl
  | append_singleton lengths length ih =>
    rw [presentCodes_append, List.map_append, List.sum_append, ← ih, kraftSum, kraftSum,
      List.map_append, List.sum_append]
    by_cases hzero : length = 0 <;> simp [hzero]

/-- The condition on headers, as a test. -/
def checksHeader (build : Build) (p : InfPass) : Bool :=
  match readSymlens build p with
  | .ok (true, list, _) =>
    (list.codes.map fun code ↦ 2 ^ (maxCodeLength - code.2)).sum = 2 ^ maxCodeLength ∨
      p.state.step = .loadDistanceDecoder ∧ list.codes.map Prod.snd = [1]
  | _ => true

theorem Guarded.completeHeader (h : Guarded p) (hcheck : checksHeader build p = true) :
    CompleteHeader build p := by
  intro list after hread
  obtain ⟨lengths, hlength, hrep, hle, -⟩ := h.readSymlens_spec hread
  rw [checksHeader, hread, decide_eq_true_eq, hrep.codes_eq, ← kraftSum_presentCodes] at hcheck
  refine ⟨lengths, hlength, hrep, ?_⟩
  rcases hcheck with hfull | ⟨hstep, hsingle⟩
  · exact .inl ⟨hle, hfull⟩
  · obtain ⟨code, hcode, hone⟩ := List.map_eq_singleton_iff.mp hsingle
    exact .inr ⟨hstep, code.1, by rw [hcode, ← hone]⟩

theorem Equipped.exists_readSymlens (build : Build) (h : Equipped p) :
    ∃ result, readSymlens build p = .ok result := by
  have hcount := symlensOf_le p.state
  have hgathers : p.state.step = .loadLiteralDecoder ∨ p.state.step = .loadDistanceDecoder →
      ∃ result, (do
        let decoder ← p.state.decoder p.state.frontDecoder
        infSLListAddEncodedSymlens build p.state.sllist (bitstreamOf p) (symlensOf p.state) decoder) =
          .ok result := by
    intro hstep
    obtain ⟨hpointer, htable, lengths, hgathering, hlength⟩ := h.gathers hstep
    rw [hpointer]
    exact hgathering.exists_encodedSymlensLoop build htable (h.frontTotal hstep) hcount.1 _ _ _ _
      hlength (turnsLeft_le _ _)
  cases hstep : p.state.step <;> simp only [readSymlens, hstep]
  case loadFrontDecoder =>
    obtain ⟨complete, list', after', hadd, -, -⟩ :=
      (h.front hstep).add3BitSymlens build (bitstreamOf p) (hcount.2 hstep)
    exact ⟨_, hadd⟩
  case loadLiteralDecoder => exact hgathers (.inl hstep)
  case loadDistanceDecoder => exact hgathers (.inr hstep)
  all_goals exact ⟨_, rfl⟩

/-! What the passes do that end with a decoder. -/

theorem passLoadFrontDecoder_eq (hstep : p.state.step = .loadFrontDecoder) :
    passLoadFrontDecoder build p = listing p (readSymlens build p) (fun q ↦ do
      let (sorted, list) ← infSLListGetSorted q.state.sllist true
      let table ← infHuffMakeDecoder build q.state.huffmanTableA sorted
      goto (withState q fun st ↦
        { st with sllist := list, huffmanTableA := table, frontDecoder := some .huffmanTableA })
        .loadLiteralDecoder) := by
  simp only [readSymlens, symlensOf, hstep]
  rfl

theorem passLoadLiteralDecoder_eq (h : Guarded p) (hstep : p.state.step = .loadLiteralDecoder) :
    passLoadLiteralDecoder build p = listing p (readSymlens build p) (fun q ↦ do
      let (sorted, list) ← infSLListGetSorted q.state.sllist false
      let table ← infHuffMakeDecoder build q.state.huffmanTableB sorted
      goto (withState q fun st ↦
        { st with sllist := list, huffmanTableB := table, literalDecoder := some .huffmanTableB })
        .loadDistanceDecoder) := by
  simp only [passLoadLiteralDecoder, readSymlens, symlensOf, hstep, (h.gathers (.inl hstep)).1]
  rfl

theorem passLoadDistanceDecoder_eq (h : Guarded p) (hstep : p.state.step = .loadDistanceDecoder) :
    passLoadDistanceDecoder build p = listing p (readSymlens build p) (fun q ↦ do
      let (sorted, list) ← infSLListGetSorted q.state.sllist true
      let table ← infHuffMakeDecoder build q.state.huffmanTableA sorted
      goto (withState q fun st ↦
        { st with sllist := list, huffmanTableA := table, distanceDecoder := some .huffmanTableA })
        .processCompressedBlock) := by
  simp only [passLoadDistanceDecoder, readSymlens, symlensOf, hstep, (h.gathers (.inr hstep)).1]
  rfl

theorem exists_reading {α : Type} {read : Except Fault (Option α × InfBS)}
    {next : α → InfPass → Except Fault InfEffect} (hread : ∃ result, read = .ok result)
    (hnext : ∀ value after, read = .ok (some value, after) →
      ∃ e, next value (withBitstream p after) = .ok e) : ∃ e, reading p read next = .ok e := by
  obtain ⟨⟨value, after⟩, hresult⟩ := hread
  simp only [reading, hresult]
  cases value with
  | none => exact ⟨_, rfl⟩
  | some value => exact hnext value after hresult

theorem exists_listing {read : Except Fault (Bool × InfSLList × InfBS)}
    {next : InfPass → Except Fault InfEffect} (hread : ∃ result, read = .ok result)
    (hnext : ∀ list after, read = .ok (true, list, after) →
      ∃ e, next (withState (withBitstream p after) fun st ↦ { st with sllist := list }) = .ok e) :
    ∃ e, listing p read next = .ok e := by
  obtain ⟨⟨complete, list, after⟩, hresult⟩ := hread
  simp only [listing, hresult]
  cases complete with
  | false => exact ⟨_, rfl⟩
  | true => exact hnext list after hresult

theorem exists_staticEntry {array : List ℕ} {index : ℕ} (h : index < array.length) :
    ∃ entry, staticEntry array index = .ok entry :=
  ⟨array[index], by simp only [staticEntry, List.getElem?_eq_getElem h]⟩

theorem Equipped.exists_makeDecoder (h : Equipped p) (hheader : CompleteHeader build p)
    (resetRepetitions : Bool) (table : InfCore → HuffTable)
    (store : InfSLList → HuffTable → InfCore → InfCore) (next : InfStep) :
    ∃ e, (listing p (readSymlens build p) fun q ↦ do
      let (sorted, list) ← infSLListGetSorted q.state.sllist resetRepetitions
      let made ← infHuffMakeDecoder build (table q.state) sorted
      goto (withState q (store list made)) next) = .ok e := by
  refine exists_listing (h.exists_readSymlens build) fun list after hread ↦ ?_
  obtain ⟨chain, elements, made, hsorted, hmake, -⟩ := hheader.makes h.toGuarded hread
    resetRepetitions
    (table (withState (withBitstream p after) fun st ↦ { st with sllist := list }).state)
  simp only [withState, hsorted, bind, Except.bind]
  simp only [withState] at hmake
  rw [hmake]
  exact ⟨_, rfl⟩

/-- No pass faults. -/
theorem Equipped.exists_inflateStep (h : Equipped p) (behind : ℕ → UInt8)
    (hheader : CompleteHeader ⟨true, some behind⟩ p) :
    ∃ e, inflateStep ⟨true, some behind⟩ p = .ok e := by
  have hptr : p.state.outputBuf.ptr ≤ infOutbufSize := h.inRange.ptr
  have hfew : ∀ {extraBits start : ℕ}, 2 ^ extraBits + start ≤ 2 ^ 32 → extraBits ≤ 32 :=
    fun hle ↦ (Nat.pow_le_pow_iff_right (by norm_num)).mp (Nat.le_of_add_right_le hle)
  rw [inflateStep_eq]
  cases hstep : p.state.step <;> simp only [passOf]
  case start | fatalError | «end» => exact ⟨_, rfl⟩
  case loadDynamicHuffmanDecoders =>
    exact exists_reading ((bitstreamOf p).exists_readBits (by norm_num)) fun _ _ _ ↦ ⟨_, rfl⟩
  case processNextBlock =>
    rw [passProcessNextBlock]
    split <;> exact ⟨_, rfl⟩
  case readBlockHeader =>
    refine exists_reading ((bitstreamOf p).exists_readBits (by norm_num)) fun temp after _ ↦ ?_
    split <;> exact ⟨_, rfl⟩
  case processUncompressedBlock =>
    refine exists_reading ((bitstreamOf p).exists_readDWord _) fun temp after _ ↦ ?_
    simp only
    split <;> exact ⟨_, rfl⟩
  case outputUncompressedBlock =>
    rw [show p = ⟨p.state, p.input, p.free⟩ from rfl, passOutputUncompressedBlock_eq]
    simp only [Build.assert, Bool.true_or, if_true]
    split
    · exact ⟨_, rfl⟩
    · split <;> exact ⟨_, rfl⟩
  case loadFixedHuffmanDecoders =>
    obtain ⟨literal, list₁, distance, list₂, hliteral, hdistance⟩ := makeFixedDecoders_ok
      ⟨true, some behind⟩ p.state.statics (h.orderly.fresh (by simp [FillsList, hstep]))
    simp only [passLoadFixedHuffmanDecoders, hliteral, hdistance, bind, Except.bind]
    exact ⟨_, rfl⟩
  case loadFrontDecoder =>
    rw [passLoadFrontDecoder_eq hstep]
    exact h.exists_makeDecoder hheader true (fun st ↦ st.huffmanTableA) (fun list table st ↦
      { st with sllist := list, huffmanTableA := table, frontDecoder := some .huffmanTableA }) _
  case loadLiteralDecoder =>
    rw [passLoadLiteralDecoder_eq h.toGuarded hstep]
    exact h.exists_makeDecoder hheader false (fun st ↦ st.huffmanTableB) (fun list table st ↦
      { st with sllist := list, huffmanTableB := table, literalDecoder := some .huffmanTableB }) _
  case loadDistanceDecoder =>
    rw [passLoadDistanceDecoder_eq h.toGuarded hstep]
    exact h.exists_makeDecoder hheader true (fun st ↦ st.huffmanTableA) (fun list table st ↦
      { st with sllist := list, huffmanTableA := table, distanceDecoder := some .huffmanTableA }) _
  case processCompressedBlock | readLiteralOrLength =>
    obtain ⟨literal, _, hliteral, -, htotal, -⟩ := h.codesTotal (by simp [InCodes, hstep])
    simp only [passReadLiteralOrLength, hliteral, bind, Except.bind]
    exact exists_reading ((bitstreamOf p).exists_readEncodedBits htotal) fun _ _ _ ↦ ⟨_, rfl⟩
  case readLiteralOrLength2 =>
    rw [show p = ⟨p.state, p.input, p.free⟩ from rfl, passReadLiteralOrLength2_eq,
      infOutbufPutc_eq _ hptr]
    split
    · split <;> exact ⟨_, rfl⟩
    · split
      · exact ⟨_, rfl⟩
      · split <;> exact ⟨_, rfl⟩
  case readLengthBits =>
    have hsymbol : p.state.literal < 29 := h.inRange.lengthSymbol hstep
    obtain ⟨extraBits, hextra⟩ := @exists_staticEntry lengthExtraBits _ hsymbol
    obtain ⟨start, hstart⟩ := @exists_staticEntry lengthStarts _ hsymbol
    have hle := (lengths_le _ hsymbol _ _ hextra hstart).2
    simp only [passReadLengthBits, hextra, hstart, bind, Except.bind]
    exact exists_reading ((bitstreamOf p).exists_readBits (hfew (hle.trans (by decide))))
      fun _ _ _ ↦ ⟨_, rfl⟩
  case readDistance =>
    obtain ⟨_, distance, -, hdistance, -, htotal⟩ := h.codesTotal (by simp [InCodes, hstep])
    simp only [passReadDistance, hdistance, bind, Except.bind]
    refine exists_reading ((bitstreamOf p).exists_readEncodedBits htotal) fun symbol after _ ↦ ?_
    split <;> exact ⟨_, rfl⟩
  case readDistanceBits =>
    have hsymbol : p.state.literal < 30 := h.inRange.distanceSymbol hstep
    obtain ⟨extraBits, hextra⟩ := @exists_staticEntry distanceExtraBits _ hsymbol
    obtain ⟨start, hstart⟩ := @exists_staticEntry distanceStarts _ hsymbol
    have hle := (distances_le _ hsymbol _ _ hextra hstart).2
    simp only [passReadDistanceBits, hextra, hstart, bind, Except.bind]
    exact exists_reading ((bitstreamOf p).exists_readBits (hfew (hle.trans (by decide))))
      fun _ _ _ ↦ ⟨_, rfl⟩
  case outputSequence =>
    have hdistance : p.state.sequenceDist ≤ infOutbufSize := (h.inRange.distance hstep).2
    obtain ⟨⟨succ, bytes, outputBuf⟩, hread⟩ := @exists_infOutbufRead true behind _
      hptr _ hdistance (min p.state.sequenceLen p.free)
    rw [show p = ⟨p.state, p.input, p.free⟩ from rfl, passOutputSequence_eq]
    simp only [hread]
    split
    · exact ⟨_, rfl⟩
    · split <;> exact ⟨_, rfl⟩
  case adler32Checksum =>
    rw [show p = ⟨p.state, p.input, p.free⟩ from rfl, passAdler32Checksum_eq]
    split <;> exact ⟨_, rfl⟩

/-! What the passes leave. -/

/-- How a pass ends that makes a decoder: without one, or with a table that answers every look-up. -/
theorem Equipped.makes (h : Equipped p) (hheader : CompleteHeader build p) {resetRepetitions : Bool}
    {table : InfCore → HuffTable} {store : InfSLList → HuffTable → InfCore → InfCore} {next : InfStep}
    (hp : (listing p (readSymlens build p) fun q ↦ do
      let (sorted, list) ← infSLListGetSorted q.state.sllist resetRepetitions
      let made ← infHuffMakeDecoder build (table q.state) sorted
      goto (withState q (store list made)) next) = .ok e) :
    (∃ list after, e = ⟨withState (withBitstream p after) fun st ↦ { st with sllist := list }, [],
        .needInput⟩) ∨
      ∃ list after list' made, made.Total ∧
        e = ⟨withState (withState (withState (withBitstream p after) fun st ↦
          { st with sllist := list }) (store list' made)) fun st ↦ { st with step := next }, [],
          .proceed⟩ := by
  rcases listing_ok hp with ⟨list, after, -, rfl⟩ | ⟨list, after, hread, hgo⟩
  · exact .inl ⟨list, after, rfl⟩
  · obtain ⟨sorted, hsort, hgo⟩ := bind_ok hgo
    obtain ⟨made, hmake, hgo⟩ := bind_ok hgo
    obtain ⟨chain, elements, made', hsorted, hmake', htotal⟩ := hheader.makes h.toGuarded hread
      resetRepetitions
      (table (withState (withBitstream p after) fun st ↦ { st with sllist := list }).state)
    cases hsort.symm.trans hsorted
    cases hmake.symm.trans hmake'
    cases hgo
    exact .inr ⟨list, after, _, made, htotal, rfl⟩

theorem Equipped.passLoadFrontDecoder (h : Equipped p) (hheader : CompleteHeader build p)
    (hstep : p.state.step = .loadFrontDecoder) (hp : inflateStep build p = .ok e) :
    e.pass.state.statics = p.state.statics ∧
      (e.signal = .proceed → e.pass.state.huffmanTableA.Total) := by
  rw [inflateStep_eq, hstep] at hp
  simp only [passOf, passLoadFrontDecoder_eq hstep] at hp
  obtain ⟨list, after, rfl⟩ | ⟨list, after, list', made, htotal, rfl⟩ :=
    @Equipped.makes build p e h hheader true (fun st ↦ st.huffmanTableA) (fun list table st ↦
      { st with sllist := list, huffmanTableA := table, frontDecoder := some .huffmanTableA }) _ hp
  · exact ⟨rfl, fun hs ↦ by cases hs⟩
  · exact ⟨rfl, fun _ ↦ htotal⟩

theorem Equipped.passLoadLiteralDecoder (h : Equipped p) (hheader : CompleteHeader build p)
    (hstep : p.state.step = .loadLiteralDecoder) (hp : inflateStep build p = .ok e) :
    e.pass.state.statics = p.state.statics ∧
      e.pass.state.huffmanTableA = p.state.huffmanTableA ∧
        (e.signal = .proceed → e.pass.state.huffmanTableB.Total) := by
  rw [inflateStep_eq, hstep] at hp
  simp only [passOf, passLoadLiteralDecoder_eq h.toGuarded hstep] at hp
  obtain ⟨list, after, rfl⟩ | ⟨list, after, list', made, htotal, rfl⟩ :=
    @Equipped.makes build p e h hheader false (fun st ↦ st.huffmanTableB) (fun list table st ↦
      { st with sllist := list, huffmanTableB := table, literalDecoder := some .huffmanTableB }) _ hp
  · exact ⟨rfl, rfl, fun hs ↦ by cases hs⟩
  · exact ⟨rfl, rfl, fun _ ↦ htotal⟩

theorem Equipped.passLoadDistanceDecoder (h : Equipped p) (hheader : CompleteHeader build p)
    (hstep : p.state.step = .loadDistanceDecoder) (hp : inflateStep build p = .ok e) :
    e.pass.state.statics = p.state.statics ∧
      e.pass.state.huffmanTableB = p.state.huffmanTableB ∧
        e.pass.state.literalDecoder = p.state.literalDecoder ∧
          (e.signal ≠ .proceed → e.pass.state.huffmanTableA = p.state.huffmanTableA) ∧
            (e.signal = .proceed → e.pass.state.huffmanTableA.Total ∧
              e.pass.state.distanceDecoder = some .huffmanTableA) := by
  rw [inflateStep_eq, hstep] at hp
  simp only [passOf, passLoadDistanceDecoder_eq h.toGuarded hstep] at hp
  obtain ⟨list, after, rfl⟩ | ⟨list, after, list', made, htotal, rfl⟩ :=
    @Equipped.makes build p e h hheader true (fun st ↦ st.huffmanTableA) (fun list table st ↦
      { st with sllist := list, huffmanTableA := table, distanceDecoder := some .huffmanTableA }) _ hp
  · exact ⟨rfl, rfl, rfl, fun _ ↦ rfl, fun hs ↦ by cases hs⟩
  · exact ⟨rfl, rfl, rfl, fun hs ↦ absurd rfl hs, fun _ ↦ ⟨htotal, rfl⟩⟩

/-- The fixed decoders are those of complete codes. -/
theorem Equipped.passLoadFixedHuffmanDecoders (h : Equipped p)
    (hstep : p.state.step = .loadFixedHuffmanDecoders) (hp : inflateStep build p = .ok e) :
    SoundStatics e.pass.state.statics ∧ ∃ literal distance,
      e.pass.state.decoder e.pass.state.literalDecoder = .ok literal ∧
        e.pass.state.decoder e.pass.state.distanceDecoder = .ok distance ∧
          literal.Total ∧ distance.Total := by
  obtain ⟨literal, list₁, hliteral, hdecodes, hfresh⟩ := infHuffMakeFixedLiteralDecoder_spec build
    h.statics.literal (h.orderly.fresh (by simp [FillsList, hstep]))
  obtain ⟨distance, list₂, hdistance, hdecodes', -⟩ :=
    infHuffMakeFixedDistanceDecoder_spec build h.statics.distance hfresh
  rw [inflateStep_eq, hstep] at hp
  simp only [passOf, Muzic.passLoadFixedHuffmanDecoders, hliteral, hdistance, bind, Except.bind] at hp
  cases hp
  obtain ⟨hcomplete, hcomplete'⟩ := complete_fixedLengths
  refine ⟨⟨?_, ?_⟩, literal, distance, rfl, rfl, hdecodes.total hcomplete,
    hdecodes'.total hcomplete'⟩
  · rintro _ ⟨⟩
    exact hdecodes
  · rintro _ ⟨⟩
    exact hdecodes'

theorem Equipped.statics_step (h : Equipped p) (hheader : CompleteHeader build p)
    (hp : inflateStep build p = .ok e) : SoundStatics e.pass.state.statics := by
  by_cases hfixed : p.state.step = .loadFixedHuffmanDecoders
  · exact (h.passLoadFixedHuffmanDecoders hfixed hp).1
  · have hsame : e.pass.state.statics = p.state.statics := by
      by_cases hfills : FillsList p.state.step
      · rcases hfills with hstep | hstep | hstep
        · exact (h.passLoadFrontDecoder hheader hstep hp).1
        · exact (h.passLoadLiteralDecoder hheader hstep hp).1
        · exact (h.passLoadDistanceDecoder hheader hstep hp).1
      · exact congrArg Decoders.statics (((bufferLaw_size build).step h.size_le hp).2 hfills hfixed)
    rw [hsame]
    exact h.statics

/-- What a pass leaves is what the next one needs, in this call or in a later one. -/
theorem Equipped.step (h : Equipped p) (hheader : CompleteHeader build p)
    (hp : inflateStep build p = .ok e) : Equipped e.pass := by
  have hturn := turn_inflateStep hp
  -- where the pass came from, in each of the steps that need something
  have hfrom : (e.pass.state.step = .loadLiteralDecoder →
        p.state.step = .loadFrontDecoder ∧ e.signal = .proceed ∨
          p.state.step = .loadLiteralDecoder ∧ e.signal ≠ .proceed) ∧
      (e.pass.state.step = .loadDistanceDecoder →
        p.state.step = .loadLiteralDecoder ∧ e.signal = .proceed ∨
          p.state.step = .loadDistanceDecoder ∧ e.signal ≠ .proceed) ∧
      (InCodes e.pass.state.step → InCodes p.state.step ∨
        p.state.step = .loadFixedHuffmanDecoders ∨
          p.state.step = .loadDistanceDecoder ∧ e.signal = .proceed) := by
    by_cases hs : e.signal = .proceed
    · rw [hs] at hturn
      obtain ⟨-, -, hliteral, hdistance, hcodes⟩ := previousStep hturn.nextStep
      refine ⟨fun hnext ↦ .inl ⟨hliteral hnext, hs⟩, fun hnext ↦ .inl ⟨hdistance hnext, hs⟩,
        fun hnext ↦ ?_⟩
      rcases hcodes hnext with hbefore | hfixed | hlast
      · exact .inl hbefore
      · exact .inr (.inl hfixed)
      · exact .inr (.inr ⟨hlast, hs⟩)
    · rcases (show e.pass.state.step = p.state.step ∨ e.pass.state.step = .fatalError from
        hturn.stays hs) with hsame | hfatal
      · rw [hsame]
        exact ⟨fun hnext ↦ .inr ⟨hnext, hs⟩, fun hnext ↦ .inr ⟨hnext, hs⟩, .inl⟩
      · rw [hfatal]
        simp [InCodes]
  obtain ⟨hliteral, hdistance, hcodes⟩ := hfrom
  refine ⟨h.toGuarded.step hp, h.statics_step hheader hp, fun hnext ↦ ?_, fun hnext ↦ ?_,
    fun hnext ↦ ?_⟩
  · rcases hnext with hnext | hnext
    · rcases hliteral hnext with ⟨hstep, hs⟩ | ⟨hstep, hs⟩
      · exact (h.passLoadFrontDecoder hheader hstep hp).2 hs
      · rw [(h.passLoadLiteralDecoder hheader hstep hp).2.1]
        exact h.frontTotal (.inl hstep)
    · rcases hdistance hnext with ⟨hstep, hs⟩ | ⟨hstep, hs⟩
      · rw [(h.passLoadLiteralDecoder hheader hstep hp).2.1]
        exact h.frontTotal (.inl hstep)
      · rw [(h.passLoadDistanceDecoder hheader hstep hp).2.2.2.1 hs]
        exact h.frontTotal (.inr hstep)
  · rcases hdistance hnext with ⟨hstep, hs⟩ | ⟨hstep, hs⟩
    · exact (h.passLoadLiteralDecoder hheader hstep hp).2.2 hs
    · rw [(h.passLoadDistanceDecoder hheader hstep hp).2.1]
      exact h.literalTotal hstep
  · rcases hcodes hnext with hbefore | hstep | ⟨hstep, hs⟩
    · obtain ⟨hsame, hsame'⟩ := decoders_inCodes hp hbefore
      rw [hsame, hsame']
      exact h.codesTotal hbefore
    · exact (h.passLoadFixedHuffmanDecoders hstep hp).2
    · obtain ⟨-, hB, hpointer, -, hmade⟩ := h.passLoadDistanceDecoder hheader hstep hp
      obtain ⟨htotal, hpointer'⟩ := hmade hs
      rw [hpointer, hpointer', h.literalDecoder hstep]
      exact ⟨e.pass.state.huffmanTableB, e.pass.state.huffmanTableA, rfl, rfl,
        hB ▸ h.literalTotal hstep, htotal⟩

/-! ### The loop -/

/-- No turn stores more than the window takes. -/
theorem Turn.stored_le {c c' : Control} {signal : Signal BlockResult} {stored : List UInt8}
    (h : Turn build c signal stored c') (hptr : c.outputBuf.ptr ≤ infOutbufSize) :
    stored.length ≤ c.free := by
  cases h with
  | copyFails _ hread =>
    exact (infOutbufRead_length hptr hread).1.trans (Nat.min_le_right _ _)
  | storedPart _ hsignal =>
    rcases hsignal with ⟨-, hlength⟩ | ⟨-, hlength, -⟩ <;> omega
  | storedAll _ hlength hfits => omega
  | literal _ _ hroom _ => exact hroom
  | copyPart _ _ hread | copyAll _ _ hread =>
    exact (infOutbufRead_length hptr hread).1.trans (Nat.min_le_right _ _)
  | _ => exact Nat.zero_le _

theorem stored_le_of_runs {r : Except Fault InfEffect} (hruns : Runs (inflateStep build) p r) :
    InRange (controlOf p) → ∀ e, r = .ok e → e.stored.length ≤ p.free := by
  induction hruns with
  | fault _ => intro _ e he; cases he
  | stop hp _ => intro h e he; cases he; exact (turn_inflateStep hp).stored_le h.ptr
  | @next p first r hp hs _ ih =>
    intro h last hlast
    cases r with
    | error fault => cases hlast
    | ok later =>
      cases hlast
      have hrest := ih (h.turn (turn_inflateStep hp)) later rfl
      have hfree : first.pass.free + first.stored.length = p.free :=
        ((turn_inflateStep hp).free h.ptr (by rw [hs]; simp)).1
      rw [Effect.after_stored, List.length_append]
      omega

theorem Live.of_reaches {q : InfPass} {stored : List UInt8}
    (hreach : Reaches (inflateStep build) p stored q) : Live p.state → Live q.state := by
  induction hreach with
  | refl p => exact fun h ↦ h
  | step hp hs _ ih => exact fun h ↦ ih ((progress h hp).live (by rw [hs]; simp))

theorem Equipped.of_reaches {q : InfPass} {stored : List UInt8}
    (hreach : Reaches (inflateStep build) p stored q) :
    Equipped p → (∀ stored q, Reaches (inflateStep build) p stored q → CompleteHeader build q) →
      Equipped q := by
  induction hreach with
  | refl p => exact fun h _ ↦ h
  | step hp hs _ ih =>
    exact fun h hheaders ↦ ih (h.step (hheaders _ _ (Reaches.refl _)) hp)
      fun stored q hq ↦ hheaders _ q (Reaches.step hp hs hq)

/-- The loop ends, and what it leaves is what the next call needs. -/
theorem Equipped.exists_runLoop (h : Equipped p) (hlive : Live p.state) (behind : ℕ → UInt8)
    (hheaders : ∀ stored q, Reaches (inflateStep ⟨true, some behind⟩) p stored q →
      CompleteHeader ⟨true, some behind⟩ q) :
    ∃ e, runLoop ⟨true, some behind⟩ p = .ok e ∧ Equipped e.pass ∧ e.signal ≠ .proceed := by
  have hruns := runs_runLoop ⟨true, some behind⟩ hlive
  cases hloop : runLoop ⟨true, some behind⟩ p with
  | error fault =>
    obtain ⟨stored, q, hreach, hq⟩ := hruns.eq_error_iff.mp hloop
    obtain ⟨e, hok⟩ := (Equipped.of_reaches hreach h hheaders).exists_inflateStep behind
      (hheaders _ _ hreach)
    cases hq.symm.trans hok
  | ok e =>
    refine ⟨e, rfl, Runs.invariant (fun e : InfEffect ↦ Equipped e.pass ∧ e.signal ≠ .proceed)
      (fun p e (hinv : Equipped p ∧ ∀ stored q, Reaches (inflateStep ⟨true, some behind⟩) p stored q →
        CompleteHeader ⟨true, some behind⟩ q) hp hs ↦ ⟨hinv.1.step (hinv.2 _ _ (Reaches.refl p)) hp,
          fun stored q hq ↦ hinv.2 _ q (Reaches.step hp hs hq)⟩)
      (fun p e hinv hp hs ↦ ⟨hinv.1.step (hinv.2 _ _ (Reaches.refl p)) hp, hs⟩)
      (fun _ _ hfinal ↦ hfinal) hruns ⟨h, hheaders⟩ e hloop⟩

end Passes

/-! ### The calls -/

/-- What a caller hands over: input and a window that are not empty, two bytes or more at first, and
what is left of the buffer, unless the call before ended waiting for input. -/
structure HandsOver (strm : ZStream) (st : InfState) (strm' : ZStream) : Prop where
  availIn : 0 < strm'.availIn
  availIn_lt : strm'.availIn < 2 ^ 32
  availOut : 0 < strm'.availOut
  first : st.action = .init → 2 ≤ strm'.availIn
  kept : st.action ≠ .init → st.action ≠ .fillInputBuffer →
    strm'.nextIn = strm.nextIn ∧ strm'.availIn = strm.availIn

/-- The main loop of the call comes to this pass. -/
def InflateCall.Meets (build : Build) (call : InflateCall) (p : InfPass) : Prop :=
  ∃ strm st inputBuffer stored, call.enters = some (strm, st, inputBuffer) ∧
    Reaches (inflateStep build) (entryPass call.memory strm st) stored p

/-- The stream record and the state behind calls on a fresh inflater that all returned `Z_OK`, where
every dynamic header that they met carries complete codes. Assertions are compiled out, and what is
read behind the ring is any byte, in each call another one. -/
inductive Served : ZStream → InfState → Prop
  | init (strm : ZStream) {statics : Statics} (heap : InfState) (hstatics : SoundStatics statics) :
      Served strm (inflateInit statics heap)
  | call {strm strm' : ZStream} {st : InfState} {memory : Memory} {behind : ℕ → UInt8}
      {r : InflateResult} (h : Served strm st) (hhands : HandsOver strm st strm')
      (hresult : inflate ⟨true, some behind⟩ memory strm' st = .ok r)
      (hheaders : ∀ p, InflateCall.Meets ⟨true, some behind⟩ ⟨memory, strm', st, .ok r⟩ p →
        CompleteHeader ⟨true, some behind⟩ p) (hcode : r.code = .ok) :
      Served r.strm r.state

/-- The call ends for a reason, and within its window. -/
structure EndsRightly (build : Build) (call : InflateCall) : Prop where
  lower : ∀ p e, call.Meets build p → inflateStep build p = .ok e → e.signal = .proceed →
    effort e.pass < effort p
  returns : ∃ r, call.result = .ok r ∧ r.stored.length ≤ call.strm.availOut ∧
    (r.code = .ok ∧ (r.strm.availIn = 0 ∨ r.strm.availOut = 0) ∨ r.code = .streamEnd ∨
      r.code = .dataError)

/-- Between two calls: what the passes of the next one need, and where the decoder reads on. -/
structure ServedState (strm : ZStream) (st : InfState) : Prop where
  equipped : Equipped ⟨st.core, [], 0⟩
  live : Live st.core
  action : st.action = .init ∨ st.action = .fillInputBuffer ∨ st.action = .useOutputBufferContent ∧
    st.inputPtr = strm.nextIn ∧ st.inputEnd = strm.nextIn + strm.availIn

/-- Another input and another window make no difference. -/
theorem Equipped.facing {p : InfPass} (h : Equipped p) (input : List UInt8) (free : ℕ) :
    Equipped ⟨p.state, input, free⟩ where
  inRange := ⟨h.inRange.lengthSymbol, h.inRange.distanceSymbol, h.inRange.length,
    h.inRange.distance, h.inRange.ptr⟩
  orderly := h.orderly
  size_le := h.size_le
  aligned := h.aligned
  front := h.front
  gathers := h.gathers
  literalDecoder := h.literalDecoder
  decoders := h.decoders
  statics := h.statics
  frontTotal := h.frontTotal
  literalTotal := h.literalTotal
  codesTotal := h.codesTotal

theorem equipped_init {statics : Statics} (heap : InfState) (hstatics : SoundStatics statics) :
    Equipped ⟨(inflateInit statics heap).core, [], 0⟩ where
  toGuarded := guarded_init statics heap [] 0
  statics := hstatics
  frontTotal hstep := by rcases hstep with hstep | hstep <;> cases hstep
  literalTotal hstep := by cases hstep
  codesTotal hstep := by simp [InCodes, inflateInit] at hstep

section Calls

variable {memory : Memory} {strm strm' : ZStream} {st : InfState} {behind : ℕ → UInt8}

/-- The part of a call behind its header. -/
theorem decodeBuffer_ends (hequipped : Equipped ⟨st.core, [], 0⟩) (hlive : Live st.core)
    (hend : st.inputEnd = st.inputPtr + strm.availIn) (hlt : strm.availIn < 2 ^ 32)
    (hout : 0 < strm.availOut)
    (hheaders : ∀ stored q, Reaches (inflateStep ⟨true, some behind⟩) (entryPass memory strm st)
      stored q → CompleteHeader ⟨true, some behind⟩ q) :
    ∃ r, decodeBuffer ⟨true, some behind⟩ memory strm st st.inputPtr = .ok r ∧
      r.stored.length ≤ strm.availOut ∧
        (r.code = .ok ∧ (r.strm.availIn = 0 ∨ r.strm.availOut = 0) ∧ ServedState r.strm r.state ∨
          r.code = .streamEnd ∨ r.code = .dataError) := by
  have hentry : Equipped (entryPass memory strm st) := hequipped.facing _ _
  obtain ⟨e, hloop, hlast, hstops⟩ := hentry.exists_runLoop hlive behind hheaders
  have hruns := runs_runLoop ⟨true, some behind⟩ (p := entryPass memory strm st) hlive
  have hr : decodeBuffer ⟨true, some behind⟩ memory strm st st.inputPtr =
      .ok (closeCall strm st st.inputPtr e) := by
    rw [decodeBuffer_eq _ hout (by omega), hloop]
    rfl
  obtain ⟨taken, htook⟩ := decodeBuffer_took hr hlive (by omega) (by omega) hlt
  have hstored : e.stored.length ≤ strm.availOut := stored_le_of_runs hruns hentry.inRange e hloop
  have hnext := htook.nextIn
  have hleft := htook.availIn
  have hwithin := htook.within
  refine ⟨_, hr, hstored, ?_⟩
  rcases hsignal : e.signal with _ | _ | _ | ⟨_ | _⟩
  · exact absurd hsignal hstops
  · have hempty := hruns.input_nil (resumable_inflateStep _) e hloop hsignal
    have hptr := htook.inputPtr
    simp only [closeCall, hempty, List.length_nil, Nat.sub_zero] at hptr
    refine .inl ⟨by simp only [closeCall, hsignal, codeAfter], .inl (by omega), ?_, ?_, .inr (.inl ?_)⟩
    · exact hlast.facing [] 0
    · exact live_of_runs hruns hlive hloop (by simp [hsignal])
    · simp only [closeCall, hsignal, actionAfter]
  · refine .inl ⟨by simp only [closeCall, hsignal, codeAfter], .inr ?_, ?_, ?_, .inr (.inr ⟨?_, ?_, ?_⟩)⟩
    · simp only [closeCall, hsignal, if_true]
    · exact hlast.facing [] 0
    · exact live_of_runs hruns hlive hloop (by simp [hsignal])
    · simp only [closeCall, hsignal, actionAfter]
    · exact htook.inputPtr.trans hnext.symm
    · rw [htook.inputEnd]
      omega
  · exact .inr (.inl (by simp only [closeCall, hsignal, codeAfter]))
  · exact .inr (.inr (by simp only [closeCall, hsignal, codeAfter]))

/-- How a call begins: it ends with its header, or the decoder reads what the caller has handed over. -/
theorem ServedState.enters (h : ServedState strm st) (hhands : HandsOver strm st strm')
    (memory : Memory) (result : Except Fault InflateResult) :
    (InflateCall.enters ⟨memory, strm', st, result⟩ = none ∧
      ∃ r, inflate ⟨true, some behind⟩ memory strm' st = .ok r ∧ r.stored = [] ∧
        (r.code = .dataError ∨ r.code = .ok ∧ r.strm.availIn = 0 ∧ r.state.core = st.core ∧
          r.state.action = .fillInputBuffer)) ∨
      ∃ strm₁ st₁, InflateCall.enters ⟨memory, strm', st, result⟩ =
          some (strm₁, st₁, st₁.inputPtr) ∧ st₁.core = st.core ∧
        st₁.inputEnd = st₁.inputPtr + strm₁.availIn ∧ strm₁.availIn ≤ strm'.availIn ∧
          strm₁.availOut = strm'.availOut := by
  rcases h.action with haction | haction | ⟨haction, hptr, hend⟩
  · have hfirst := hhands.first haction
    by_cases hcmf : memory strm'.nextIn = 0x78
    · by_cases htwo : strm'.availIn = 2
      · left
        simp only [InflateCall.enters, haction, hcmf, htwo, inflate, Build.assert, Bool.true_or, bind,
          Except.bind]
        exact ⟨by simp, _, rfl, rfl, .inr ⟨rfl, rfl, rfl, rfl⟩⟩
      · right
        refine ⟨{ strm' with totalIn := 2, availIn := strm'.availIn - 2 }, { st with
          inputPtr := strm'.nextIn + 2, inputEnd := strm'.nextIn + strm'.availIn }, ?_, rfl, ?_,
          Nat.sub_le _ _, rfl⟩
        · simp only [InflateCall.enters, haction]
          exact if_neg (by simp only [hcmf, ne_eq, not_true, false_or]; omega)
        · simp only
          omega
    · left
      simp only [InflateCall.enters, haction, inflate, Build.assert, Bool.true_or, bind, Except.bind,
        hcmf, ne_eq, not_false_eq_true, true_or, if_true]
      exact ⟨trivial, _, rfl, rfl, .inl rfl⟩
  · exact .inr ⟨strm', { st with inputPtr := strm'.nextIn, inputEnd := strm'.nextIn + strm'.availIn },
      by simp only [InflateCall.enters, haction], rfl, rfl, le_rfl, rfl⟩
  · obtain ⟨hnext, havail⟩ := hhands.kept (by simp [haction]) (by simp [haction])
    refine .inr ⟨strm', st, ?_, rfl, ?_, le_rfl, rfl⟩
    · simp only [InflateCall.enters, haction, hnext, hptr]
    · omega

/-- One call, and what it leaves. -/
theorem ServedState.call (h : ServedState strm st) (hhands : HandsOver strm st strm')
    (hheaders : ∀ p, InflateCall.Meets ⟨true, some behind⟩
      ⟨memory, strm', st, inflate ⟨true, some behind⟩ memory strm' st⟩ p →
        CompleteHeader ⟨true, some behind⟩ p) :
    EndsRightly ⟨true, some behind⟩
        ⟨memory, strm', st, inflate ⟨true, some behind⟩ memory strm' st⟩ ∧
      ∀ r, inflate ⟨true, some behind⟩ memory strm' st = .ok r → r.code = .ok →
        ServedState r.strm r.state := by
  have hpositive := hhands.availIn
  have hlt := hhands.availIn_lt
  rcases h.enters hhands memory (inflate ⟨true, some behind⟩ memory strm' st) with
    ⟨hnone, r, hr, hstored, hcode⟩ | ⟨strm₁, st₁, henters, hcore, hend, hle, hout⟩
  · refine ⟨⟨fun p e hmeets ↦ ?_, r, hr, ?_, ?_⟩, fun r' hr' hok ↦ ?_⟩
    · obtain ⟨_, _, _, _, hsome, _⟩ := hmeets
      cases hnone.symm.trans hsome
    · rw [hstored]
      exact Nat.zero_le _
    · rcases hcode with herror | ⟨hok, hempty, -⟩
      · exact .inr (.inr herror)
      · exact .inl ⟨hok, .inl hempty⟩
    · cases hr.symm.trans hr'
      rcases hcode with herror | ⟨-, -, hsame, haction⟩
      · cases herror.symm.trans hok
      · exact ⟨by rw [hsame]; exact h.equipped, by rw [hsame]; exact h.live, .inr (.inl haction)⟩
  · have hlive : Live st₁.core := by rw [hcore]; exact h.live
    obtain ⟨r, hr, hstored, hcode⟩ := @decodeBuffer_ends memory strm₁ st₁ behind
      (by rw [hcore]; exact h.equipped) hlive hend (by omega) (by rw [hout]; exact hhands.availOut)
      (fun stored q hreach ↦ hheaders q ⟨_, _, _, stored, henters, hreach⟩)
    have hcall := @InflateCall.enters_eq _ ⟨true, some behind⟩ _ _ _ henters hpositive
    rw [hr] at hcall
    refine ⟨⟨fun p e hmeets hp hs ↦ ?_, r, hcall, ?_, ?_⟩, fun r' hr' hok ↦ ?_⟩
    · obtain ⟨_, _, _, stored, hsome, hreach⟩ := hmeets
      cases henters.symm.trans hsome
      exact (progress (Live.of_reaches hreach hlive) hp).lower hs
    · rw [← hout]
      exact hstored
    · rcases hcode with ⟨hok, hused, -⟩ | hfinal
      · exact .inl ⟨hok, hused⟩
      · exact .inr hfinal
    · cases hcall.symm.trans hr'
      rcases hcode with ⟨-, -, hnext⟩ | hfinal | hfinal
      · exact hnext
      · cases hfinal.symm.trans hok
      · cases hfinal.symm.trans hok

/-- Where a run of calls stands. -/
theorem Served.state (h : Served strm st) : ServedState strm st := by
  induction h with
  | @init strm statics heap hstatics =>
    exact ⟨equipped_init heap hstatics, (@Reachable.init ⟨true, none⟩ statics heap).live
      (by simp [inflateInit]), .inl rfl⟩
  | call _ hhands hresult hheaders hcode ih =>
    exact (ih.call hhands hheaders).2 _ hresult hcode

/-- In every run of calls every call ends, and for a reason. -/
theorem inflate_ends (h : Served strm st) (hhands : HandsOver strm st strm')
    (hheaders : ∀ p, InflateCall.Meets ⟨true, some behind⟩
      ⟨memory, strm', st, inflate ⟨true, some behind⟩ memory strm' st⟩ p →
        CompleteHeader ⟨true, some behind⟩ p) :
    EndsRightly ⟨true, some behind⟩
      ⟨memory, strm', st, inflate ⟨true, some behind⟩ memory strm' st⟩ :=
  (h.state.call hhands hheaders).1

/-- A dynamic block with the letter `a`: its code lengths are those of complete codes, and there is one
distance code. -/
def dynamicLetter : List UInt8 := [120, 1, 5, 192, 129, 0, 0, 0, 0, 0, 144, 86, 255, 19, 8]

theorem inflate_ends_dynamicLetter :
    EndsRightly ⟨true, some fun _ ↦ 0⟩ ⟨memoryOf dynamicLetter, streamOf 15 1, freshInflater,
      inflate ⟨true, some fun _ ↦ 0⟩ (memoryOf dynamicLetter) (streamOf 15 1) freshInflater⟩ := by
  refine inflate_ends (.init (streamOf 15 1) zeroHeap ⟨fun _ h ↦ ?_, fun _ h ↦ ?_⟩)
    ⟨by decide, by decide, by decide, fun _ ↦ by decide, fun hne ↦ absurd rfl hne⟩
    fun p hmeets ↦ ?_
  · cases h
  · cases h
  · have hchecks : runChecks (inflateStep ⟨true, some fun _ ↦ 0⟩) (checksHeader ⟨true, some fun _ ↦ 0⟩)
        20 ⟨freshInflater.core, dynamicLetter.drop 2, 1⟩ = true := by decide +kernel
    obtain ⟨_, _, _, stored, henters, hreach⟩ := hmeets
    cases henters
    exact ((guarded_init ⟨none, none⟩ zeroHeap _ _).of_reaches hreach).completeHeader
      (hreach.checked 20 hchecks)

end Calls

end ZephyrThrift.Muzic
