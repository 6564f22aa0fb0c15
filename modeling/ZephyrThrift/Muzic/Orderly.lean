import ZephyrThrift.Muzic.Calls
import ZephyrThrift.Muzic.CodeLengths

/-!
# What holds in every reachable state

Whatever the input, the bit buffer holds no bits behind its size, and the symbol-length list is empty
except while the code lengths of a dynamic header are read (`Orderly`).
-/

set_option autoImplicit false
set_option relaxedAutoImplicit false

namespace ZephyrThrift.Muzic

open Foundation

/-! ### The bit buffer -/

theorem InfBS.shiftRight_low {bits size : ℕ} (h : bits < 2 ^ size) (count : ℕ) :
    bits >>> count < 2 ^ (size - count) := by
  rcases le_or_gt count size with hle | hgt
  · rw [Nat.shiftRight_eq_div_pow, Nat.div_lt_iff_lt_mul (Nat.two_pow_pos _), ← pow_add,
      Nat.sub_add_cancel hle]
    exact h
  · have hsmall : bits < 2 ^ count := h.trans (Nat.pow_lt_pow_right (by norm_num) hgt)
    rw [Nat.shiftRight_eq_div_pow, Nat.div_eq_of_lt hsmall]
    exact Nat.two_pow_pos _

theorem InfBS.loadByte_low {bits size loaded : ℕ} {byte : UInt8} (h : bits < 2 ^ size)
    (hload : loadByte bits size byte = .ok loaded) : loaded < 2 ^ (size + 8) := by
  rw [loadByte] at hload
  split at hload
  · cases hload
    refine Nat.or_lt_two_pow (h.trans_le (Nat.pow_le_pow_right (by norm_num) (by omega))) ?_
    refine (Nat.mod_le _ _).trans_lt ?_
    rw [Nat.shiftLeft_eq, pow_add, Nat.mul_comm]
    exact Nat.mul_lt_mul_of_pos_left byte.toNat_lt (Nat.two_pow_pos size)
  · cases hload

/-- A property of the bit buffer that its moves keep: loading a byte, dropping bits, emptying it. -/
structure BufferMoves (holds : ℕ → ℕ → Prop) : Prop where
  load : ∀ {bits size loaded : ℕ} {byte : UInt8}, holds bits size →
    InfBS.loadByte bits size byte = .ok loaded → holds loaded (size + 8)
  drop : ∀ {bits size : ℕ} (count : ℕ), holds bits size → holds (bits >>> count) (size - count)
  empty : holds 0 0

/-- A property of the bit buffer that all of its readers keep. -/
structure BufferLaw (build : Build) (holds : ℕ → ℕ → Prop) : Prop where
  readBits : ∀ {count : ℕ} {result : Option ℕ} {bitstream after : InfBS},
    holds bitstream.bits bitstream.size → bitstream.readBits count = .ok (result, after) →
      holds after.bits after.size
  readEncodedBits : ∀ {decoder : HuffTable} {result : Option ℕ} {bitstream after : InfBS},
    holds bitstream.bits bitstream.size → bitstream.readEncodedBits decoder = .ok (result, after) →
      holds after.bits after.size
  readDWord : ∀ {result : Option ℕ} {bitstream after : InfBS},
    holds bitstream.bits bitstream.size → bitstream.readDWord build = .ok (result, after) →
      holds after.bits after.size

section Moves

variable {holds : ℕ → ℕ → Prop}

theorem BufferMoves.loadUpTo (moves : BufferMoves holds) {count : ℕ} {enough : Bool} {after : InfBS}
    (input : List UInt8) :
    ∀ bits size, holds bits size → InfBS.loadUpTo count bits size input = .ok (enough, after) →
      holds after.bits after.size := by
  induction input with
  | nil => intro bits size h hload; cases hload; exact h
  | cons byte input ih =>
    intro bits size h hload
    rw [InfBS.loadUpTo] at hload
    split at hload
    · split at hload
      · cases hload
      · next hbyte => exact ih _ _ (moves.load h hbyte) hload
    · cases hload; exact h

theorem BufferMoves.takeCode (moves : BufferMoves holds) {data : InfHuff} {result : Option ℕ}
    {bitstream after : InfBS} (h : holds bitstream.bits bitstream.size)
    (htake : InfBS.takeCode data bitstream = .ok (result, after)) : holds after.bits after.size := by
  simp only [InfBS.takeCode, InfBS.dropBits] at htake
  split at htake
  · cases htake
  · next hdrop =>
    split at hdrop
    · cases hdrop; cases htake; exact moves.drop _ h
    · cases hdrop

theorem BufferMoves.readEncodedLoop (moves : BufferMoves holds) {decoder : HuffTable}
    {result : Option ℕ} {after : InfBS} (input : List UInt8) :
    ∀ bits size, holds bits size →
      InfBS.readEncodedLoop decoder bits size input = .ok (result, after) →
        holds after.bits after.size := by
  induction input with
  | nil =>
    intro bits size h hread
    rw [InfBS.readEncodedLoop_eq] at hread
    split at hread
    · cases hread
    · split at hread
      · cases hread; exact h
      · exact moves.takeCode h hread
  | cons byte input ih =>
    intro bits size h hread
    rw [InfBS.readEncodedLoop_eq] at hread
    split at hread
    · cases hread
    · split at hread
      · simp only at hread
        split at hread
        · cases hread
        · next hload => exact ih _ _ (moves.load h hload) hread
      · exact moves.takeCode h hread

/-- The readers make no other moves. -/
theorem BufferMoves.law (moves : BufferMoves holds) (build : Build) : BufferLaw build holds where
  readBits h hread := by
    simp only [InfBS.readBits] at hread
    split at hread
    · cases hread
    · next hload => cases hread; exact moves.loadUpTo _ _ _ h hload
    · next hload => cases hread; exact moves.drop _ (moves.loadUpTo _ _ _ h hload)
  readEncodedBits {decoder result bitstream after} h hread := by
    obtain ⟨bits, size, input⟩ := bitstream
    simp only [InfBS.readEncodedBits] at hread
    split at hread
    · next hsize =>
      subst hsize
      split at hread
      · cases hread; exact h
      · split at hread
        · cases hread
        · next hload => exact moves.readEncodedLoop _ _ _ (moves.load h hload) hread
    · exact moves.readEncodedLoop _ _ _ h hread
  readDWord h hread := by
    simp only [InfBS.readDWord] at hread
    split at hread
    · cases hread
    · next hload => cases hread; exact moves.loadUpTo _ _ _ (moves.drop _ h) hload
    · split at hread
      · cases hread
      · cases hread; exact moves.empty

end Moves

theorem bufferLaw_low (build : Build) : BufferLaw build fun bits size ↦ bits < 2 ^ size :=
  BufferMoves.law ⟨InfBS.loadByte_low, fun count h ↦ InfBS.shiftRight_low h count, Nat.one_pos⟩ build

section Lists

variable {build : Build} {holds : ℕ → ℕ → Prop} {complete : Bool} {list' : InfSLList} {after : InfBS}

theorem BufferLaw.read3BitLengths (law : BufferLaw build holds) (count : ℕ) :
    ∀ (list : InfSLList) (bitstream : InfBS), holds bitstream.bits bitstream.size →
      Muzic.read3BitLengths list bitstream count = .ok (complete, list', after) →
        holds after.bits after.size := by
  induction count with
  | zero => intro list bitstream h hread; cases hread; exact h
  | succ count ih =>
    intro list bitstream h hread
    rw [Muzic.read3BitLengths] at hread
    split at hread
    · cases hread
    · next hbits => cases hread; exact law.readBits h hbits
    · next hbits => exact ih _ _ (law.readBits h hbits) hread

theorem BufferLaw.add3BitSymlens (law : BufferLaw build holds) {list : InfSLList} {bitstream : InfBS}
    {count : ℕ} (h : holds bitstream.bits bitstream.size)
    (hadd : infSLListAdd3BitSymlens build list bitstream count = .ok (complete, list', after)) :
    holds after.bits after.size := by
  simp only [infSLListAdd3BitSymlens] at hadd
  split at hadd
  · cases hadd
  · next hread => cases hadd; exact law.read3BitLengths _ _ _ h hread
  · next hread =>
    split at hadd
    · cases hadd
    · cases hadd; exact law.read3BitLengths _ _ _ h hread

theorem BufferLaw.readCommand (law : BufferLaw build holds) {decoder : HuffTable} {list : InfSLList}
    {bitstream : InfBS} (h : holds bitstream.bits bitstream.size)
    (hread : Muzic.readCommand decoder list bitstream = .ok (complete, list', after)) :
    holds after.bits after.size := by
  have hrun : ∀ (list : InfSLList) (bitstream : InfBS), holds bitstream.bits bitstream.size →
      runCommand list bitstream = .ok (complete, list', after) → holds after.bits after.size := by
    intro list bitstream h hrun
    rcases runCommand_cases list with ⟨extraBits, base, length, _, hcase⟩ | hcase
    · rw [hcase, readRepetitions] at hrun
      split at hrun
      · cases hrun
      · next hbits => cases hrun; exact law.readBits h hbits
      · next hbits => cases hrun; exact law.readBits h hbits
    · rw [hcase] at hrun
      cases hrun
      exact h
  rw [Muzic.readCommand] at hread
  split at hread
  · split at hread
    · cases hread
    · next hbits => cases hread; exact law.readEncodedBits h hbits
    · next hbits => exact hrun _ _ (law.readEncodedBits h hbits) hread
  · exact hrun _ _ h hread

theorem BufferLaw.encodedSymlensLoop (law : BufferLaw build holds) {numberOfSymlens : ℕ}
    {decoder : HuffTable} (fuel : ℕ) :
    ∀ (list : InfSLList) (bitstream : InfBS), holds bitstream.bits bitstream.size →
      Muzic.encodedSymlensLoop build numberOfSymlens decoder fuel list bitstream =
        .ok (complete, list', after) → holds after.bits after.size := by
  induction fuel with
  | zero => intro list bitstream _ hloop; cases hloop
  | succ fuel ih =>
    intro list bitstream h hloop
    rw [Muzic.encodedSymlensLoop] at hloop
    split at hloop
    · split at hloop
      · cases hloop
      · split at hloop
        · split at hloop
          · cases hloop
          · split at hloop
            · cases hloop
            · next hread => cases hloop; exact law.readCommand h hread
            · next hread => exact ih _ _ (law.readCommand h hread) hloop
        · cases hloop; exact h
    · cases hloop; exact h

end Lists

/-! ### The symbol-length list -/

theorem fresh_of_getSorted {list list' : InfSLList} {chain : List InfSymlen}
    (h : infSLListGetSorted list true = .ok (chain, list')) : list'.Fresh := by
  simp only [infSLListGetSorted] at h
  split at h
  · cases h
  · split at h
    · cases h
    · cases h
      exact fresh_restarted list _

theorem infHuffMakeFixedLiteralDecoder_fresh {build : Build} {cachedDecoder : Option HuffTable}
    {list list' : InfSLList} {table : HuffTable} (hlist : list.Fresh)
    (h : infHuffMakeFixedLiteralDecoder build cachedDecoder list = .ok (table, list')) :
    list'.Fresh := by
  cases cachedDecoder with
  | some cached => cases h; exact hlist
  | none =>
    obtain ⟨_, _, h⟩ := bind_ok h
    obtain ⟨_, _, h⟩ := bind_ok h
    obtain ⟨_, _, h⟩ := bind_ok h
    obtain ⟨_, _, h⟩ := bind_ok h
    obtain ⟨sorted, hsorted, h⟩ := bind_ok h
    obtain ⟨_, _, h⟩ := bind_ok h
    cases h
    exact fresh_of_getSorted hsorted

theorem infHuffMakeFixedDistanceDecoder_fresh {build : Build} {cachedDecoder : Option HuffTable}
    {list list' : InfSLList} {table : HuffTable} (hlist : list.Fresh)
    (h : infHuffMakeFixedDistanceDecoder build cachedDecoder list = .ok (table, list')) :
    list'.Fresh := by
  cases cachedDecoder with
  | some cached => cases h; exact hlist
  | none =>
    obtain ⟨_, _, h⟩ := bind_ok h
    obtain ⟨sorted, hsorted, h⟩ := bind_ok h
    obtain ⟨_, _, h⟩ := bind_ok h
    cases h
    exact fresh_of_getSorted hsorted

/-! ### The state -/

/-- The steps that fill the symbol-length list. -/
def FillsList (step : InfStep) : Prop :=
  step = .loadFrontDecoder ∨ step = .loadLiteralDecoder ∨ step = .loadDistanceDecoder

/-- No bits behind the size of the buffer, and an empty list unless it is being filled. -/
structure Orderly (st : InfCore) : Prop where
  low : st.bits < 2 ^ st.size
  fresh : ¬ FillsList st.step → st.sllist.Fresh

/-- The symbol-length list, the decoder pointers and the tables. -/
structure Decoders where
  sllist : InfSLList
  frontDecoder : Option DecoderRef
  literalDecoder : Option DecoderRef
  distanceDecoder : Option DecoderRef
  huffmanTableA : HuffTable
  huffmanTableB : HuffTable
  statics : Statics

def decodersOf (st : InfCore) : Decoders :=
  ⟨st.sllist, st.frontDecoder, st.literalDecoder, st.distanceDecoder, st.huffmanTableA,
    st.huffmanTableB, st.statics⟩

theorem decoder_of_decodersOf {st st' : InfCore} (h : decodersOf st' = decodersOf st)
    (ref : Option DecoderRef) : st'.decoder ref = st.decoder ref := by
  have hA : st'.huffmanTableA = st.huffmanTableA := congrArg Decoders.huffmanTableA h
  have hB : st'.huffmanTableB = st.huffmanTableB := congrArg Decoders.huffmanTableB h
  have hstatics : st'.statics = st.statics := congrArg Decoders.statics h
  cases ref with
  | none => rfl
  | some ref => cases ref <;> simp only [InfCore.decoder, hA, hB, hstatics]

section Passes

variable {build : Build} {holds : ℕ → ℕ → Prop} {p : InfPass} {e : InfEffect}

/-- A pass keeps what the readers of the bit buffer keep, and only four steps change the list and the
decoders. -/
theorem BufferLaw.step (law : BufferLaw build holds) (h : holds p.state.bits p.state.size)
    (hp : inflateStep build p = .ok e) :
    holds e.pass.state.bits e.pass.state.size ∧
      (¬ FillsList p.state.step → p.state.step ≠ .loadFixedHuffmanDecoders →
        decodersOf e.pass.state = decodersOf p.state) := by
  have hbits : ∀ {count : ℕ} {result : Option ℕ} {after : InfBS},
      (bitstreamOf p).readBits count = .ok (result, after) → holds after.bits after.size :=
    fun hread ↦ law.readBits (show holds (bitstreamOf p).bits (bitstreamOf p).size from h) hread
  have hcode : ∀ {decoder : HuffTable} {result : Option ℕ} {after : InfBS},
      (bitstreamOf p).readEncodedBits decoder = .ok (result, after) → holds after.bits after.size :=
    fun hread ↦ law.readEncodedBits (show holds (bitstreamOf p).bits (bitstreamOf p).size from h) hread
  rw [inflateStep_eq] at hp
  cases hcase : p.state.step <;> simp only [hcase, passOf] at hp
  case start => cases hp; exact ⟨h, fun _ _ ↦ rfl⟩
  case processNextBlock =>
    rw [passProcessNextBlock] at hp
    split at hp <;> cases hp <;> exact ⟨h, fun _ _ ↦ rfl⟩
  case readBlockHeader =>
    rcases reading_ok hp with ⟨after, hread, rfl⟩ | ⟨temp, after, hread, hnext⟩
    · exact ⟨hbits hread, fun _ _ ↦ rfl⟩
    · split at hnext <;> cases hnext <;> exact ⟨hbits hread, fun _ _ ↦ rfl⟩
  case processUncompressedBlock =>
    rcases reading_ok hp with ⟨after, hread, rfl⟩ | ⟨temp, after, hread, hnext⟩
    · exact ⟨law.readDWord h hread, fun _ _ ↦ rfl⟩
    · simp only at hnext
      split at hnext <;> cases hnext <;> exact ⟨law.readDWord h hread, fun _ _ ↦ rfl⟩
  case outputUncompressedBlock =>
    rw [show p = ⟨p.state, p.input, p.free⟩ from rfl, passOutputUncompressedBlock_eq] at hp
    split at hp
    · cases hp
    · simp only at hp
      split at hp
      · cases hp; exact ⟨h, fun _ _ ↦ rfl⟩
      · split at hp <;> cases hp <;> exact ⟨h, fun _ _ ↦ rfl⟩
  case loadFixedHuffmanDecoders =>
    obtain ⟨_, _, hp⟩ := bind_ok hp
    obtain ⟨_, _, hp⟩ := bind_ok hp
    cases hp
    exact ⟨h, fun _ hfixed ↦ absurd rfl hfixed⟩
  case loadDynamicHuffmanDecoders =>
    rcases reading_ok hp with ⟨after, hread, rfl⟩ | ⟨temp, after, hread, hnext⟩
    · exact ⟨hbits hread, fun _ _ ↦ rfl⟩
    · cases hnext; exact ⟨hbits hread, fun _ _ ↦ rfl⟩
  case loadFrontDecoder =>
    rcases listing_ok hp with ⟨list, after, hread, rfl⟩ | ⟨list, after, hread, hnext⟩
    · exact ⟨law.add3BitSymlens h hread, fun hnot ↦ absurd (.inl rfl) hnot⟩
    · obtain ⟨_, _, hnext⟩ := bind_ok hnext
      obtain ⟨_, _, hnext⟩ := bind_ok hnext
      cases hnext
      exact ⟨law.add3BitSymlens h hread, fun hnot ↦ absurd (.inl rfl) hnot⟩
  case loadLiteralDecoder =>
    obtain ⟨_, _, hp⟩ := bind_ok hp
    rcases listing_ok hp with ⟨list, after, hread, rfl⟩ | ⟨list, after, hread, hnext⟩
    · exact ⟨law.encodedSymlensLoop _ _ _ h hread, fun hnot ↦ absurd (.inr (.inl rfl)) hnot⟩
    · obtain ⟨_, _, hnext⟩ := bind_ok hnext
      obtain ⟨_, _, hnext⟩ := bind_ok hnext
      cases hnext
      exact ⟨law.encodedSymlensLoop _ _ _ h hread, fun hnot ↦ absurd (.inr (.inl rfl)) hnot⟩
  case loadDistanceDecoder =>
    obtain ⟨_, _, hp⟩ := bind_ok hp
    rcases listing_ok hp with ⟨list, after, hread, rfl⟩ | ⟨list, after, hread, hnext⟩
    · exact ⟨law.encodedSymlensLoop _ _ _ h hread, fun hnot ↦ absurd (.inr (.inr rfl)) hnot⟩
    · obtain ⟨_, _, hnext⟩ := bind_ok hnext
      obtain ⟨_, _, hnext⟩ := bind_ok hnext
      cases hnext
      exact ⟨law.encodedSymlensLoop _ _ _ h hread, fun hnot ↦ absurd (.inr (.inr rfl)) hnot⟩
  case processCompressedBlock =>
    obtain ⟨_, _, hp⟩ := bind_ok hp
    rcases reading_ok hp with ⟨after, hread, rfl⟩ | ⟨temp, after, hread, hnext⟩
    · exact ⟨hcode hread, fun _ _ ↦ rfl⟩
    · cases hnext; exact ⟨hcode hread, fun _ _ ↦ rfl⟩
  case readLiteralOrLength =>
    obtain ⟨_, _, hp⟩ := bind_ok hp
    rcases reading_ok hp with ⟨after, hread, rfl⟩ | ⟨temp, after, hread, hnext⟩
    · exact ⟨hcode hread, fun _ _ ↦ rfl⟩
    · cases hnext; exact ⟨hcode hread, fun _ _ ↦ rfl⟩
  case readLiteralOrLength2 =>
    rw [show p = ⟨p.state, p.input, p.free⟩ from rfl, passReadLiteralOrLength2_eq] at hp
    split at hp
    · split at hp
      · cases hp; exact ⟨h, fun _ _ ↦ rfl⟩
      · split at hp
        · cases hp
        · cases hp; exact ⟨h, fun _ _ ↦ rfl⟩
    · split at hp
      · cases hp; exact ⟨h, fun _ _ ↦ rfl⟩
      · split at hp <;> cases hp <;> exact ⟨h, fun _ _ ↦ rfl⟩
  case readLengthBits =>
    obtain ⟨_, _, hp⟩ := bind_ok hp
    obtain ⟨_, _, hp⟩ := bind_ok hp
    rcases reading_ok hp with ⟨after, hread, rfl⟩ | ⟨temp, after, hread, hnext⟩
    · exact ⟨hbits hread, fun _ _ ↦ rfl⟩
    · obtain ⟨_, _, hnext⟩ := bind_ok hnext
      cases hnext; exact ⟨hbits hread, fun _ _ ↦ rfl⟩
  case readDistance =>
    obtain ⟨_, _, hp⟩ := bind_ok hp
    rcases reading_ok hp with ⟨after, hread, rfl⟩ | ⟨temp, after, hread, hnext⟩
    · exact ⟨hcode hread, fun _ _ ↦ rfl⟩
    · simp only at hnext
      split at hnext <;> cases hnext <;> exact ⟨hcode hread, fun _ _ ↦ rfl⟩
  case readDistanceBits =>
    obtain ⟨_, _, hp⟩ := bind_ok hp
    obtain ⟨_, _, hp⟩ := bind_ok hp
    rcases reading_ok hp with ⟨after, hread, rfl⟩ | ⟨temp, after, hread, hnext⟩
    · exact ⟨hbits hread, fun _ _ ↦ rfl⟩
    · obtain ⟨_, _, hnext⟩ := bind_ok hnext
      cases hnext; exact ⟨hbits hread, fun _ _ ↦ rfl⟩
  case outputSequence =>
    rw [show p = ⟨p.state, p.input, p.free⟩ from rfl, passOutputSequence_eq] at hp
    split at hp
    · cases hp
    · simp only at hp
      split at hp
      · cases hp; exact ⟨h, fun _ _ ↦ rfl⟩
      · split at hp <;> cases hp <;> exact ⟨h, fun _ _ ↦ rfl⟩
  case fatalError => cases hp; exact ⟨h, fun _ _ ↦ rfl⟩
  case adler32Checksum =>
    rw [show p = ⟨p.state, p.input, p.free⟩ from rfl, passAdler32Checksum_eq] at hp
    split at hp <;> cases hp <;> exact ⟨h, fun _ _ ↦ rfl⟩
  case «end» => cases hp; exact ⟨h, fun _ _ ↦ rfl⟩

theorem orderly_inflateStep (h : Orderly p.state) (hp : inflateStep build p = .ok e) :
    Orderly e.pass.state := by
  obtain ⟨hlow, hkeep⟩ := (bufferLaw_low build).step h.low hp
  refine ⟨hlow, fun hfills ↦ ?_⟩
  by_cases hstep : FillsList p.state.step
  · -- the last of the three steps leaves an empty list
    rw [inflateStep_eq] at hp
    rcases hstep with hstep | hstep | hstep <;> simp only [hstep, passOf] at hp
    · rcases listing_ok hp with ⟨list, after, -, rfl⟩ | ⟨list, after, -, hnext⟩
      · exact absurd (.inl hstep) hfills
      · obtain ⟨_, _, hnext⟩ := bind_ok hnext
        obtain ⟨_, _, hnext⟩ := bind_ok hnext
        cases hnext
        exact absurd (.inr (.inl rfl)) hfills
    · obtain ⟨_, _, hp⟩ := bind_ok hp
      rcases listing_ok hp with ⟨list, after, -, rfl⟩ | ⟨list, after, -, hnext⟩
      · exact absurd (.inr (.inl hstep)) hfills
      · obtain ⟨_, _, hnext⟩ := bind_ok hnext
        obtain ⟨_, _, hnext⟩ := bind_ok hnext
        cases hnext
        exact absurd (.inr (.inr rfl)) hfills
    · obtain ⟨_, _, hp⟩ := bind_ok hp
      rcases listing_ok hp with ⟨list, after, -, rfl⟩ | ⟨list, after, -, hnext⟩
      · exact absurd (.inr (.inr hstep)) hfills
      · obtain ⟨_, hsorted, hnext⟩ := bind_ok hnext
        obtain ⟨_, _, hnext⟩ := bind_ok hnext
        cases hnext
        exact fresh_of_getSorted hsorted
  by_cases hfixed : p.state.step = .loadFixedHuffmanDecoders
  · rw [inflateStep_eq] at hp
    simp only [hfixed, passOf] at hp
    obtain ⟨_, hliteral, hp⟩ := bind_ok hp
    obtain ⟨_, hdistance, hp⟩ := bind_ok hp
    cases hp
    exact infHuffMakeFixedDistanceDecoder_fresh
      (infHuffMakeFixedLiteralDecoder_fresh (h.fresh hstep) hliteral) hdistance
  · have hsame : e.pass.state.sllist = p.state.sllist :=
      congrArg Decoders.sllist (hkeep hstep hfixed)
    rw [hsame]
    exact h.fresh hstep

/-- Passes that proceed keep the state orderly. -/
theorem Orderly.of_reaches {p q : InfPass} {stored : List UInt8} (h : Orderly p.state)
    (hreach : Reaches (inflateStep build) p stored q) : Orderly q.state := by
  induction hreach with
  | refl p => exact h
  | step hp _ _ ih => exact ih (orderly_inflateStep h hp)

theorem Orderly.of_runs {r : Except Fault InfEffect} (h : Orderly p.state)
    (hruns : Runs (inflateStep build) p r) {e : InfEffect} (he : r = .ok e) :
    Orderly e.pass.state := by
  have hfinal : ∀ (p : InfPass) (e : InfEffect), Orderly p.state → inflateStep build p = .ok e →
      Orderly e.pass.state := fun _ _ ↦ orderly_inflateStep
  exact Runs.invariant (fun e : InfEffect ↦ Orderly e.pass.state) (fun p e h hp _ ↦ hfinal p e h hp)
    (fun p e h hp _ ↦ hfinal p e h hp) (fun _ _ h ↦ h) hruns h e he

end Passes

/-- Every reachable state is orderly. -/
theorem Reachable.orderly {build : Build} {st : InfState} (h : Reachable build st) :
    Orderly st.core := by
  induction h with
  | init statics heap =>
    exact ⟨Nat.one_pos, fun _ ↦
      ⟨represents_nil rfl (fun _ ↦ rfl) fun _ ↦ rfl, rfl, rfl, rfl, rfl⟩⟩
  | @call memory strm st r hst hr ih =>
    rcases inflate_cases hr with ⟨hcore, -⟩ | ⟨strm', st', _, hcore, haction, hdecode⟩
    · rw [hcore]
      exact ih
    · obtain ⟨e, hrun, rfl⟩ := decodeBuffer_ok hdecode
      have hlive : Live st'.core := by rw [hcore]; exact hst.live haction
      have horderly : Orderly st'.core := by rw [hcore]; exact ih
      exact Orderly.of_runs (p := entryPass memory strm' st') horderly (runs_runLoop build hlive) hrun

end ZephyrThrift.Muzic
