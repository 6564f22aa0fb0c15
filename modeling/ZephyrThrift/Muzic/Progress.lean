import ZephyrThrift.Muzic.Suspension

/-!
# The loop of the inflater ends

Every pass that proceeds consumes bits, fills the window, or goes to a step of lower rank
(`progress`). The invariant `Live` is what this needs of the state: the loop is not entered after a
fatal error, and a match has a positive length. So the bound on the passes of a call is never met,
and a call computes the run of its pass (`run_inflateStep`).
-/

set_option autoImplicit false
set_option relaxedAutoImplicit false

namespace ZephyrThrift.Muzic

open Foundation

/-! ### What readers consume -/

/-- The bits that are left: those in the buffer and those in the input. -/
def InfBS.amount (bitstream : InfBS) : ℕ := 8 * bitstream.input.length + bitstream.size

theorem InfBS.loadUpTo_amount {count : ℕ} {enough : Bool} {after : InfBS} (input : List UInt8) :
    ∀ bits size, loadUpTo count bits size input = .ok (enough, after) →
      after.amount = 8 * input.length + size ∧ (enough = true → count ≤ after.size) := by
  induction input with
  | nil =>
    intro bits size h
    cases h
    exact ⟨rfl, fun h ↦ of_decide_eq_true h⟩
  | cons byte input ih =>
    intro bits size h
    rw [loadUpTo] at h
    split at h
    · cases hload : loadByte bits size byte with
      | error fault => rw [hload] at h; cases h
      | ok bits' =>
        rw [hload] at h
        obtain ⟨hamount, henough⟩ := ih _ _ h
        exact ⟨by rw [hamount, List.length_cons]; ring, henough⟩
    · next hge =>
      cases h
      exact ⟨rfl, fun _ ↦ not_lt.mp hge⟩

theorem InfBS.readBits_amount {count value : ℕ} {bitstream after : InfBS}
    (h : bitstream.readBits count = .ok (some value, after)) :
    after.amount + count = bitstream.amount := by
  simp only [readBits] at h
  split at h
  · cases h
  · cases h
  · next loaded hload =>
    obtain ⟨hamount, henough⟩ := loadUpTo_amount _ _ _ hload
    have hcount := henough rfl
    cases h
    simp only [amount] at hamount ⊢
    omega

theorem InfBS.readDWord_amount {build : Build} {value : ℕ} {bitstream after : InfBS}
    (h : bitstream.readDWord build = .ok (some value, after)) :
    after.amount + 32 ≤ bitstream.amount := by
  simp only [readDWord] at h
  split at h
  · cases h
  · cases h
  · next loaded hload =>
    obtain ⟨hamount, henough⟩ := loadUpTo_amount _ _ _ hload
    have hcount := henough rfl
    split at h
    · cases h
    · cases h
      simp only [amount] at hamount ⊢
      omega

theorem InfBS.readEncodedLoop_amount {decoder : HuffTable} {result : Option ℕ} {after : InfBS}
    (input : List UInt8) :
    ∀ bits size, readEncodedLoop decoder bits size input = .ok (result, after) →
      after.amount ≤ 8 * input.length + size := by
  have htake : ∀ {data : InfHuff} {bits size : ℕ} {input : List UInt8},
      takeCode data ⟨bits, size, input⟩ = .ok (result, after) →
        after.amount ≤ 8 * input.length + size := by
    intro data bits size input h
    simp only [takeCode] at h
    split at h
    · cases h
    · cases h
      simp only [amount]
      omega
  induction input with
  | nil =>
    intro bits size h
    rw [readEncodedLoop_eq] at h
    split at h
    · cases h
    · split at h
      · cases h; exact le_rfl
      · exact htake h
  | cons byte input ih =>
    intro bits size h
    rw [readEncodedLoop_eq] at h
    split at h
    · cases h
    · split at h
      · simp only at h
        split at h
        · cases h
        · have := ih _ _ h
          rw [List.length_cons]
          omega
      · exact htake h

theorem InfBS.readEncodedBits_amount {decoder : HuffTable} {result : Option ℕ}
    {bitstream after : InfBS} (h : bitstream.readEncodedBits decoder = .ok (result, after)) :
    after.amount ≤ bitstream.amount := by
  obtain ⟨bits, size, input⟩ := bitstream
  simp only [readEncodedBits] at h
  split at h
  · next hsize =>
    split at h
    · cases h; exact le_rfl
    · split at h
      · cases h
      · have hloop := readEncodedLoop_amount _ _ _ h
        simp only [amount, List.length_cons] at hloop ⊢
        omega
  · exact readEncodedLoop_amount _ _ _ h

theorem read3BitLengths_amount {done : Bool} {list' : InfSLList} {after : InfBS} (count : ℕ) :
    ∀ list bitstream, read3BitLengths list bitstream count = .ok (done, list', after) →
      done = true → after.amount ≤ bitstream.amount := by
  induction count with
  | zero => intro list bitstream h _; cases h; exact le_rfl
  | succ count ih =>
    intro list bitstream h hdone
    rw [read3BitLengths] at h
    split at h
    · cases h
    · cases h; cases hdone
    · next length middle hread =>
      have hfirst := InfBS.readBits_amount hread
      have hrest := ih _ _ h hdone
      omega

theorem readCommand_amount {decoder : HuffTable} {list list' : InfSLList} {bitstream after : InfBS}
    (h : readCommand decoder list bitstream = .ok (true, list', after)) :
    after.amount ≤ bitstream.amount := by
  have hrun : ∀ (list : InfSLList) (bitstream : InfBS),
      runCommand list bitstream = .ok (true, list', after) → after.amount ≤ bitstream.amount := by
    intro list bitstream h
    rcases runCommand_cases list with ⟨extraBits, base, length, _, hcase⟩ | hcase
    · rw [hcase, readRepetitions] at h
      split at h
      · cases h
      · cases h
      · next value middle hread =>
        cases h
        exact Nat.le_of_add_right_le (InfBS.readBits_amount hread).le
    · rw [hcase] at h
      cases h
      exact le_rfl
  rw [readCommand] at h
  split at h
  · split at h
    · cases h
    · cases h
    · next command middle hread =>
      exact (hrun _ _ h).trans (InfBS.readEncodedBits_amount hread)
  · exact hrun _ _ h

theorem encodedSymlensLoop_amount {build : Build} {numberOfSymlens : ℕ} {decoder : HuffTable}
    {list' : InfSLList} {after : InfBS} (fuel : ℕ) :
    ∀ list bitstream, encodedSymlensLoop build numberOfSymlens decoder fuel list bitstream =
      .ok (true, list', after) → after.amount ≤ bitstream.amount := by
  induction fuel with
  | zero => intro list bitstream h; cases h
  | succ fuel ih =>
    intro list bitstream h
    rw [encodedSymlensLoop] at h
    split at h
    · split at h
      · cases h
      · split at h
        · split at h
          · cases h
          · split at h
            · cases h
            · cases h
            · next list₂ middle hread => exact (ih _ _ h).trans (readCommand_amount hread)
        · cases h; exact le_rfl
    · cases h; exact le_rfl

/-! ### What passes leave -/

/-- What the loop needs of the state it is entered with. -/
structure Live (st : InfCore) : Prop where
  running : st.step ≠ .fatalError
  pending : st.step = .readDistance ∨ st.step = .readDistanceBits ∨ st.step = .outputSequence →
    0 < st.sequenceLen
  ptr : st.outputBuf.ptr ≤ infOutbufSize

/-- The order in which steps that consume nothing follow each other. -/
def rank : InfStep → ℕ
  | .loadFrontDecoder => 15
  | .loadLiteralDecoder => 14
  | .loadDistanceDecoder => 13
  | .loadFixedHuffmanDecoders => 13
  | .processCompressedBlock => 12
  | .readLiteralOrLength => 12
  | .readLiteralOrLength2 => 11
  | .readLengthBits => 10
  | .readDistance => 9
  | .readDistanceBits => 8
  | .outputSequence => 7
  | .outputUncompressedBlock => 6
  | .start => 5
  | .processNextBlock => 4
  | .readBlockHeader => 3
  | .adler32Checksum => 2
  | .end => 1
  | .loadDynamicHuffmanDecoders => 0
  | .processUncompressedBlock => 0
  | .fatalError => 0

theorem rank_le (step : InfStep) : rank step ≤ 15 := by cases step <;> decide

/-- What is left to do before the loop ends, if it does not suspend. -/
def effort (p : InfPass) : ℕ := 16 * ((bitstreamOf p).amount + p.free) + rank p.state.step

theorem effort_le_passBound (p : InfPass) : effort p ≤ passBound p := by
  have := rank_le p.state.step
  simp only [effort, passBound, InfBS.amount, bitstreamOf]
  omega

/-- A pass that keeps the state live, unless it ends in an error, and lowers the effort when it
proceeds. -/
structure Advance (p : InfPass) (e : InfEffect) : Prop where
  free : e.pass.free ≤ p.free
  live : (∀ msg, e.signal ≠ .halt (.dataError msg)) → Live e.pass.state
  lower : e.signal = .proceed → effort e.pass < effort p

theorem reading_ok {α : Type} {p : InfPass} {read : Except Fault (Option α × InfBS)}
    {next : α → InfPass → Except Fault InfEffect} {e : InfEffect}
    (h : reading p read next = .ok e) :
    (∃ after, read = .ok (none, after) ∧ e = ⟨withBitstream p after, [], .needInput⟩) ∨
      ∃ value after, read = .ok (some value, after) ∧ next value (withBitstream p after) = .ok e := by
  rw [reading.eq_def] at h
  split at h
  · cases h
  · cases h; exact .inl ⟨_, rfl, rfl⟩
  · exact .inr ⟨_, _, rfl, h⟩

theorem listing_ok {p : InfPass} {read : Except Fault (Bool × InfSLList × InfBS)}
    {next : InfPass → Except Fault InfEffect} {e : InfEffect} (h : listing p read next = .ok e) :
    (∃ list after, read = .ok (false, list, after) ∧
        e = ⟨withState (withBitstream p after) fun st ↦ { st with sllist := list }, [],
          .needInput⟩) ∨
      ∃ list after, read = .ok (true, list, after) ∧
        next (withState (withBitstream p after) fun st ↦ { st with sllist := list }) = .ok e := by
  rw [listing.eq_def] at h
  split at h
  · cases h
  · cases h; exact .inl ⟨_, _, rfl, rfl⟩
  · exact .inr ⟨_, _, rfl, h⟩

theorem Advance.suspend {p : InfPass} {after : InfBS} {list : InfSLList} (h : Live p.state) :
    Advance p ⟨⟨{ p.state with bits := after.bits, size := after.size, sllist := list },
      after.input, p.free⟩, [], .needInput⟩ where
  free := le_rfl
  live _ := ⟨h.running, h.pending, h.ptr⟩
  lower hs := by cases hs

/-- Going to a step that reads no match needs nothing of the state but the window. -/
theorem Advance.goto {p q : InfPass} {next : InfStep} {e : InfEffect}
    (hgoto : goto q next = .ok e) (hptr : q.state.outputBuf.ptr ≤ infOutbufSize)
    (hrunning : next ≠ .fatalError)
    (hpending : next = .readDistance ∨ next = .readDistanceBits ∨ next = .outputSequence →
      0 < q.state.sequenceLen)
    (hfree : q.free ≤ p.free)
    (hlower : 16 * ((bitstreamOf q).amount + q.free) + rank next < effort p) : Advance p e := by
  cases hgoto
  exact ⟨hfree, fun _ ↦ ⟨hrunning, hpending, hptr⟩, fun _ ↦ hlower⟩

theorem Advance.fatal {p q : InfPass} {stored : List UInt8} {msg : Option String} {e : InfEffect}
    (hfatal : fatal q stored msg = .ok e) (hfree : q.free ≤ p.free) : Advance p e := by
  cases hfatal
  exact ⟨hfree, fun h ↦ absurd rfl (h msg), fun hs ↦ by cases hs⟩

section Advances

variable {build : Build} {p : InfPass} {e : InfEffect}

theorem advance_start (hstep : p.state.step = .start) (h : Live p.state)
    (hp : passStart p = .ok e) : Advance p e := by
  refine Advance.goto hp h.ptr (by simp) (by simp) le_rfl ?_
  simp only [effort, hstep, rank]
  exact Nat.lt_succ_self _

theorem advance_processNextBlock (hstep : p.state.step = .processNextBlock) (h : Live p.state)
    (hp : passProcessNextBlock p = .ok e) : Advance p e := by
  rw [passProcessNextBlock] at hp
  split at hp
  · refine Advance.goto hp h.ptr (by simp) (by simp) le_rfl ?_
    simp only [effort, hstep, rank]
    exact Nat.add_lt_add_left (by norm_num) _
  · refine Advance.goto hp h.ptr (by simp) (by simp) le_rfl ?_
    simp only [effort, hstep, rank]
    exact Nat.lt_succ_self _

theorem advance_readBlockHeader (h : Live p.state) (hp : passReadBlockHeader p = .ok e) :
    Advance p e := by
  rcases reading_ok hp with ⟨after, _, rfl⟩ | ⟨temp, after, hread, hnext⟩
  · exact Advance.suspend h
  · have hamount := InfBS.readBits_amount hread
    have hlower : ∀ step, 16 * (after.amount + p.free) + rank step < effort p := by
      intro step
      have := rank_le step
      simp only [effort]
      omega
    split at hnext
    · exact Advance.goto hnext h.ptr (by simp) (by simp) le_rfl (hlower _)
    · exact Advance.goto hnext h.ptr (by simp) (by simp) le_rfl (hlower _)
    · exact Advance.goto hnext h.ptr (by simp) (by simp) le_rfl (hlower _)
    · exact Advance.fatal hnext le_rfl

theorem advance_processUncompressedBlock (h : Live p.state)
    (hp : passProcessUncompressedBlock build p = .ok e) : Advance p e := by
  rcases reading_ok hp with ⟨after, _, rfl⟩ | ⟨temp, after, hread, hnext⟩
  · exact Advance.suspend h
  · have hamount := InfBS.readDWord_amount hread
    simp only at hnext
    split at hnext
    · exact Advance.fatal hnext le_rfl
    · refine Advance.goto hnext h.ptr (by simp) (by simp) le_rfl ?_
      have hrank := rank_le .outputUncompressedBlock
      have heffort : 16 * (after.amount + p.free) + rank .outputUncompressedBlock < effort p := by
        simp only [effort]
        omega
      exact heffort

theorem advance_outputUncompressedBlock (hstep : p.state.step = .outputUncompressedBlock)
    (h : Live p.state) (hp : passOutputUncompressedBlock build p = .ok e) : Advance p e := by
  obtain ⟨st, input, free⟩ := p
  rw [passOutputUncompressedBlock_eq] at hp
  have hptr := infOutbufWrite_ptr_le h.ptr (input.take (min st.sequenceLen free))
  simp only at hstep hptr
  split at hp
  · cases hp
  · simp only at hp
    split at hp
    · cases hp
      exact ⟨Nat.sub_le _ _, fun _ ↦ ⟨h.running, by simp [hstep], hptr⟩, fun hs ↦ by cases hs⟩
    · split at hp
      · cases hp
        exact ⟨Nat.sub_le _ _, fun _ ↦ ⟨h.running, by simp [hstep], hptr⟩, fun hs ↦ by cases hs⟩
      · cases hp
        refine ⟨Nat.sub_le _ _, fun _ ↦ ⟨by simp, by simp, hptr⟩, fun _ ↦ ?_⟩
        simp only [effort, hstep, rank, bitstreamOf, InfBS.amount, List.length_drop]
        omega

theorem advance_loadFixedHuffmanDecoders (hstep : p.state.step = .loadFixedHuffmanDecoders)
    (h : Live p.state) (hp : passLoadFixedHuffmanDecoders build p = .ok e) : Advance p e := by
  obtain ⟨literal, _, hp⟩ := bind_ok hp
  obtain ⟨distance, _, hp⟩ := bind_ok hp
  refine Advance.goto hp h.ptr (by simp) (by simp) le_rfl ?_
  simp only [effort, hstep, rank]
  exact Nat.lt_succ_self _

theorem advance_loadDynamicHuffmanDecoders (h : Live p.state)
    (hp : passLoadDynamicHuffmanDecoders p = .ok e) : Advance p e := by
  rcases reading_ok hp with ⟨after, _, rfl⟩ | ⟨temp, after, hread, hnext⟩
  · exact Advance.suspend h
  · have hamount := InfBS.readBits_amount hread
    have hrank := rank_le .loadFrontDecoder
    have hlower : 16 * (after.amount + p.free) + rank .loadFrontDecoder < effort p := by
      simp only [effort]
      omega
    exact Advance.goto hnext h.ptr (by simp) (by simp) le_rfl hlower

/-- The end of a header step: a table is made and the next step has a lower rank. -/
theorem advance_makeDecoder {q : InfPass} {resetRepetitions : Bool} {table : HuffTable}
    (store : InfSLList → HuffTable → InfCore → InfCore) {next : InfStep}
    (hp : (do
      let (sorted, list) ← infSLListGetSorted q.state.sllist resetRepetitions
      let made ← infHuffMakeDecoder build table sorted
      Muzic.goto (withState q (store list made)) next) = .ok e)
    (hptr : ∀ list made, (store list made q.state).outputBuf.ptr ≤ infOutbufSize)
    (hsize : ∀ list made, (store list made q.state).size = q.state.size)
    (hrunning : next ≠ .fatalError)
    (hpending : ¬(next = .readDistance ∨ next = .readDistanceBits ∨ next = .outputSequence))
    (hfree : q.free ≤ p.free)
    (hlower : 16 * ((bitstreamOf q).amount + q.free) + rank next < effort p) : Advance p e := by
  obtain ⟨sorted, _, hp⟩ := bind_ok hp
  obtain ⟨made, _, hp⟩ := bind_ok hp
  refine Advance.goto hp (hptr _ _) hrunning (fun hnext ↦ absurd hnext hpending) hfree ?_
  simp only [withState, bitstreamOf, InfBS.amount, hsize] at hlower ⊢
  exact hlower

theorem effort_lower {after : InfBS} {step next : InfStep} (hstep : p.state.step = step)
    (hamount : after.amount ≤ (bitstreamOf p).amount) (hrank : rank next < rank step) :
    16 * (after.amount + p.free) + rank next < effort p := by
  rw [effort, hstep]
  omega

theorem advance_loadFrontDecoder (hstep : p.state.step = .loadFrontDecoder) (h : Live p.state)
    (hp : passLoadFrontDecoder build p = .ok e) : Advance p e := by
  rcases listing_ok hp with ⟨list, after, _, rfl⟩ | ⟨list, after, hread, hnext⟩
  · exact Advance.suspend h
  · have hamount : after.amount ≤ (bitstreamOf p).amount := by
      simp only [infSLListAdd3BitSymlens] at hread
      split at hread
      · cases hread
      · cases hread
      · next list₁ middle hlengths =>
        split at hread
        · cases hread
        · cases hread
          exact read3BitLengths_amount _ _ _ hlengths rfl
    refine advance_makeDecoder (fun list table st ↦
      { st with sllist := list, huffmanTableA := table, frontDecoder := some .huffmanTableA })
      hnext (fun _ _ ↦ h.ptr) (fun _ _ ↦ rfl) (by simp) (by simp) le_rfl ?_
    exact effort_lower hstep hamount (by decide)

theorem advance_loadLiteralDecoder (hstep : p.state.step = .loadLiteralDecoder) (h : Live p.state)
    (hp : passLoadLiteralDecoder build p = .ok e) : Advance p e := by
  obtain ⟨decoder, _, hp⟩ := bind_ok hp
  rcases listing_ok hp with ⟨list, after, _, rfl⟩ | ⟨list, after, hread, hnext⟩
  · exact Advance.suspend h
  · refine advance_makeDecoder (fun list table st ↦
      { st with sllist := list, huffmanTableB := table, literalDecoder := some .huffmanTableB })
      hnext (fun _ _ ↦ h.ptr) (fun _ _ ↦ rfl) (by simp) (by simp) le_rfl ?_
    exact effort_lower hstep (encodedSymlensLoop_amount _ _ _ hread) (by decide)

theorem advance_loadDistanceDecoder (hstep : p.state.step = .loadDistanceDecoder)
    (h : Live p.state) (hp : passLoadDistanceDecoder build p = .ok e) : Advance p e := by
  obtain ⟨decoder, _, hp⟩ := bind_ok hp
  rcases listing_ok hp with ⟨list, after, _, rfl⟩ | ⟨list, after, hread, hnext⟩
  · exact Advance.suspend h
  · refine advance_makeDecoder (fun list table st ↦
      { st with sllist := list, huffmanTableA := table, distanceDecoder := some .huffmanTableA })
      hnext (fun _ _ ↦ h.ptr) (fun _ _ ↦ rfl) (by simp) (by simp) le_rfl ?_
    exact effort_lower hstep (encodedSymlensLoop_amount _ _ _ hread) (by decide)

theorem advance_readLiteralOrLength
    (hstep : p.state.step = .processCompressedBlock ∨ p.state.step = .readLiteralOrLength)
    (h : Live p.state) (hp : passReadLiteralOrLength p = .ok e) : Advance p e := by
  obtain ⟨decoder, _, hp⟩ := bind_ok hp
  rcases reading_ok hp with ⟨after, _, rfl⟩ | ⟨literal, after, hread, hnext⟩
  · exact Advance.suspend h
  · refine Advance.goto hnext h.ptr (by simp) (by simp) le_rfl ?_
    have hamount := InfBS.readEncodedBits_amount hread
    rcases hstep with hstep | hstep
    · exact effort_lower hstep hamount (by decide)
    · exact effort_lower hstep hamount (by decide)

theorem advance_readLiteralOrLength2 (hstep : p.state.step = .readLiteralOrLength2)
    (h : Live p.state) (hp : passReadLiteralOrLength2 build p = .ok e) : Advance p e := by
  rw [passReadLiteralOrLength2] at hp
  split at hp
  · split at hp
    · cases hp
      exact ⟨le_rfl, fun _ ↦ h, fun hs ↦ by cases hs⟩
    · next hroom =>
      simp only [infOutbufPutc_eq build h.ptr] at hp
      cases hp
      refine ⟨Nat.sub_le _ _,
        fun _ ↦ ⟨by simp [withState], by simp [withState], ringPut_ptr_le _ _⟩, fun _ ↦ ?_⟩
      simp only [effort, hstep, rank, withState, bitstreamOf]
      omega
  · split at hp
    · refine Advance.goto hp h.ptr (by simp) (by simp) le_rfl ?_
      simp only [effort, hstep, rank]
      exact Nat.add_lt_add_left (by norm_num) _
    · split at hp
      · exact Advance.fatal hp le_rfl
      · refine Advance.goto hp h.ptr (by simp) (by simp) (by simp [withState]) ?_
        simp only [withState, bitstreamOf, effort, hstep, rank]
        omega

theorem staticEntry_mem {array : List ℕ} {index entry : ℕ} (h : staticEntry array index = .ok entry) :
    entry ∈ array := by
  rw [staticEntry] at h
  split at h
  · next hentry => cases h; exact List.mem_of_getElem? hentry
  · cases h

theorem advance_readLengthBits (hstep : p.state.step = .readLengthBits) (h : Live p.state)
    (hp : passReadLengthBits build p = .ok e) : Advance p e := by
  obtain ⟨extraBits, _, hp⟩ := bind_ok hp
  obtain ⟨start, hstart, hp⟩ := bind_ok hp
  rcases reading_ok hp with ⟨after, _, rfl⟩ | ⟨temp, after, hread, hnext⟩
  · exact Advance.suspend h
  · obtain ⟨_, _, hnext⟩ := bind_ok hnext
    have hpositive : ∀ start ∈ lengthStarts, 0 < start := by decide
    have hlength : 0 < temp + start := Nat.add_pos_right _ (hpositive _ (staticEntry_mem hstart))
    refine Advance.goto hnext h.ptr (by simp) (fun _ ↦ hlength) le_rfl ?_
    exact effort_lower hstep (Nat.le_of_add_right_le (InfBS.readBits_amount hread).le) (by decide)

theorem advance_readDistance (hstep : p.state.step = .readDistance) (h : Live p.state)
    (hp : passReadDistance p = .ok e) : Advance p e := by
  obtain ⟨decoder, _, hp⟩ := bind_ok hp
  rcases reading_ok hp with ⟨after, _, rfl⟩ | ⟨literal, after, hread, hnext⟩
  · exact Advance.suspend h
  · simp only at hnext
    split at hnext
    · exact Advance.fatal hnext le_rfl
    · refine Advance.goto hnext h.ptr (by simp) (fun _ ↦ h.pending (.inl hstep)) le_rfl ?_
      exact effort_lower hstep (InfBS.readEncodedBits_amount hread) (by decide)

theorem advance_readDistanceBits (hstep : p.state.step = .readDistanceBits) (h : Live p.state)
    (hp : passReadDistanceBits build p = .ok e) : Advance p e := by
  obtain ⟨extraBits, _, hp⟩ := bind_ok hp
  obtain ⟨start, _, hp⟩ := bind_ok hp
  rcases reading_ok hp with ⟨after, _, rfl⟩ | ⟨temp, after, hread, hnext⟩
  · exact Advance.suspend h
  · obtain ⟨_, _, hnext⟩ := bind_ok hnext
    refine Advance.goto hnext h.ptr (by simp) (fun _ ↦ h.pending (.inr (.inl hstep))) le_rfl ?_
    exact effort_lower hstep (Nat.le_of_add_right_le (InfBS.readBits_amount hread).le) (by decide)

theorem infOutbufRead_ptr_le {infbuf infbuf' : InfOutbuf} {distance count : ℕ} {succ : Bool}
    {bytes : List UInt8} (h : infbuf.ptr ≤ infOutbufSize)
    (hread : infOutbufRead build infbuf distance count = .ok (succ, bytes, infbuf')) :
    infbuf'.ptr ≤ infOutbufSize := by
  rw [infOutbufRead] at hread
  split at hread
  · split at hread
    · cases hread
    simp only at hread
    split at hread
    · cases hread; exact infOutbufWrite_ptr_le h _
    split at hread
    · cases hread; exact infOutbufWrite_ptr_le h _
    split at hread
    · cases hread
    · next hcopy => cases hread; exact (copyLoop_ptr_le _ (infOutbufWrite_ptr_le h _) hcopy).2
  · split at hread
    · cases hread
    · next hcopy => cases hread; exact (copyLoop_ptr_le _ h hcopy).2

theorem advance_outputSequence (hstep : p.state.step = .outputSequence) (h : Live p.state)
    (hp : passOutputSequence build p = .ok e) : Advance p e := by
  obtain ⟨st, input, free⟩ := p
  simp only at hstep
  have hpositive := h.pending (.inr (.inr hstep))
  simp only at hpositive
  rw [passOutputSequence_eq] at hp
  split at hp
  · cases hp
  · next succ bytes outputBuf hread =>
    have hptr := infOutbufRead_ptr_le h.ptr hread
    simp only at hp
    split at hp
    · cases hp
      exact ⟨Nat.sub_le _ _, fun h ↦ absurd rfl (h none), fun hs ↦ by cases hs⟩
    · split at hp
      · next hfits =>
        cases hp
        refine ⟨Nat.sub_le _ _, fun _ ↦ ⟨by simp, by simp, hptr⟩, fun _ ↦ ?_⟩
        simp only [effort, hstep, rank, bitstreamOf]
        omega
      · next hfull =>
        cases hp
        exact ⟨Nat.sub_le _ _, fun _ ↦ ⟨h.running, fun _ ↦ by simp only; omega, hptr⟩,
          fun hs ↦ by cases hs⟩

theorem advance_adler32Checksum (hstep : p.state.step = .adler32Checksum) (h : Live p.state)
    (hp : passAdler32Checksum p = .ok e) : Advance p e := by
  obtain ⟨st, input, free⟩ := p
  simp only at hstep
  rw [passAdler32Checksum_eq] at hp
  split at hp
  · cases hp
    refine ⟨le_rfl, fun _ ↦ ⟨by simp, by simp, h.ptr⟩, fun _ ↦ ?_⟩
    simp only [effort, hstep, rank, bitstreamOf, InfBS.amount, List.length_drop]
    omega
  · cases hp
    exact ⟨le_rfl, fun _ ↦ ⟨h.running, by simp [hstep], h.ptr⟩, fun hs ↦ by cases hs⟩

end Advances

/-- Every pass of a live state advances. -/
theorem progress {build : Build} {p : InfPass} {e : InfEffect} (h : Live p.state)
    (hp : inflateStep build p = .ok e) : Advance p e := by
  rw [inflateStep_eq] at hp
  cases hstep : p.state.step <;> simp only [hstep, passOf] at hp
  case start => exact advance_start hstep h hp
  case processNextBlock => exact advance_processNextBlock hstep h hp
  case readBlockHeader => exact advance_readBlockHeader h hp
  case processUncompressedBlock => exact advance_processUncompressedBlock h hp
  case outputUncompressedBlock => exact advance_outputUncompressedBlock hstep h hp
  case loadFixedHuffmanDecoders => exact advance_loadFixedHuffmanDecoders hstep h hp
  case loadDynamicHuffmanDecoders => exact advance_loadDynamicHuffmanDecoders h hp
  case loadFrontDecoder => exact advance_loadFrontDecoder hstep h hp
  case loadLiteralDecoder => exact advance_loadLiteralDecoder hstep h hp
  case loadDistanceDecoder => exact advance_loadDistanceDecoder hstep h hp
  case processCompressedBlock => exact advance_readLiteralOrLength (.inl hstep) h hp
  case readLiteralOrLength => exact advance_readLiteralOrLength (.inr hstep) h hp
  case readLiteralOrLength2 => exact advance_readLiteralOrLength2 hstep h hp
  case readLengthBits => exact advance_readLengthBits hstep h hp
  case readDistance => exact advance_readDistance hstep h hp
  case readDistanceBits => exact advance_readDistanceBits hstep h hp
  case outputSequence => exact advance_outputSequence hstep h hp
  case fatalError => exact absurd hstep h.running
  case adler32Checksum => exact advance_adler32Checksum hstep h hp
  case «end» =>
    cases hp
    exact ⟨le_rfl, fun _ ↦ h, fun hs ↦ by cases hs⟩

/-- The bounded loop of a call is the loop. -/
theorem run_inflateStep (build : Build) {p : InfPass} (h : Live p.state) :
    Runs (inflateStep build) p (run (inflateStep build) .endlessLoop (passBound p + 1) p) := by
  have hstep : ∀ (p : InfPass) (e : InfEffect), Live p.state → inflateStep build p = .ok e →
      e.signal = .proceed → Live e.pass.state ∧ effort e.pass < effort p := by
    intro p e hlive hp hs
    have hadvance := progress hlive hp
    exact ⟨hadvance.live (by rw [hs]; simp), hadvance.lower hs⟩
  exact run_runs_of_measure .endlessLoop (fun p ↦ Live p.state) effort hstep (passBound p + 1) p h
    (Nat.lt_succ_of_le (effort_le_passBound p))

/-- A run leaves the state live, unless it ends in an error. -/
theorem live_of_runs {build : Build} {p : InfPass} {r : Except Fault InfEffect}
    (hruns : Runs (inflateStep build) p r) (h : Live p.state) {e : InfEffect} (he : r = .ok e)
    (hs : ∀ msg, e.signal ≠ .halt (.dataError msg)) : Live e.pass.state := by
  have hfinal := Runs.invariant
    (fun e : InfEffect ↦ (∀ msg, e.signal ≠ .halt (.dataError msg)) → Live e.pass.state)
    (fun p e hlive hp hproceed ↦ (progress hlive hp).live (by rw [hproceed]; simp))
    (fun p e hlive hp _ ↦ (progress hlive hp).live) (fun e earlier hlive ↦ hlive) hruns h e he
  exact hfinal hs

/-- A run does not free window space. -/
theorem free_le_of_runs {build : Build} {p : InfPass} {r : Except Fault InfEffect}
    (hruns : Runs (inflateStep build) p r) :
    Live p.state → ∀ e, r = .ok e → e.pass.free ≤ p.free := by
  induction hruns with
  | fault _ => intro _ e he; cases he
  | stop hp _ => intro hlive e he; cases he; exact (progress hlive hp).free
  | @next p e₁ r hp hproceed _ ih =>
    intro hlive e he
    have hadvance := progress hlive hp
    cases r with
    | error fault => cases he
    | ok last =>
      cases he
      exact (ih (hadvance.live (by rw [hproceed]; simp)) last rfl).trans hadvance.free

end ZephyrThrift.Muzic
