import ZephyrThrift.Muzic.HeaderDecoding
import ZephyrThrift.Muzic.WindowRing

/-!
# Decoding the symbols of a block

In front of the symbols of a compressed block, with decoders for its two alphabets, the passes store
what the reference decoder outputs and end at the next block (`symbols_spec`). The window must not
wrap: the output so far and that of the block fit into 32 KiB.
-/

set_option autoImplicit false
set_option relaxedAutoImplicit false

namespace ZephyrThrift.Muzic

open Foundation

/-- The static variables as the program leaves them: unset, or the decoders of the fixed codes. -/
structure SoundStatics (statics : Statics) : Prop where
  literal : CachedFor statics.cachedLiteral fixedLiteralLengths
  distance : CachedFor statics.cachedDistance fixedDistanceLengths

theorem soundStatics_none : SoundStatics ⟨none, none⟩ := ⟨nofun, nofun⟩

/-- The output so far, the unread bits, and what the blocks share. -/
structure At (p : InfPass) (history : List UInt8) (bits : List Bool) : Prop where
  faces : (bitstreamOf p).Faces 7 bits
  ring : RingHolds p.state.outputBuf history
  fresh : p.state.sllist.Fresh
  statics : SoundStatics p.state.statics

/-- The passes from here store some bytes and lead there, within one block. -/
structure Leads (build : Build) (p : InfPass) (stored : List UInt8) (q : InfPass) : Prop where
  reaches : Reaches (inflateStep build) p stored q
  free : q.free + stored.length = p.free
  isLastBlock : q.state.isLastBlock = p.state.isLastBlock

section Leads

variable {build : Build} {p q r : InfPass}

theorem Leads.refl (build : Build) (p : InfPass) : Leads build p [] p := ⟨.refl p, rfl, rfl⟩

theorem Leads.trans {first second : List UInt8} (h : Leads build p first q)
    (h' : Leads build q second r) : Leads build p (first ++ second) r where
  reaches := h.reaches.trans h'.reaches
  free := by
    have hfirst := h.free
    have hsecond := h'.free
    rw [List.length_append]
    omega
  isLastBlock := h'.isLastBlock.trans h.isLastBlock

/-- One pass that proceeds. -/
theorem Leads.single {stored : List UInt8} (hp : inflateStep build p = .ok ⟨q, stored, .proceed⟩)
    (hfree : q.free + stored.length = p.free)
    (hlast : q.state.isLastBlock = p.state.isLastBlock) : Leads build p stored q :=
  ⟨Reaches.single hp rfl, hfree, hlast⟩

theorem Leads.of_untouched {p q : InfPass} (h : Reaches (inflateStep build) p [] q)
    (huntouched : Untouched p q) : Leads build p [] q :=
  ⟨h, huntouched.free, huntouched.isLastBlock⟩

end Leads

/-- In front of a symbol, with decoders for the two alphabets. -/
structure InSymbols (literal distance : List ℕ) (p : InfPass) (history : List UInt8)
    (bits : List Bool) : Prop extends At p history bits where
  literalPoints : Points p.state p.state.literalDecoder literal
  distancePoints : Points p.state p.state.distanceDecoder distance

/-! ### The tables of extra bits -/

theorem lengthCodes_eq : lengthCodes = lengthExtraBits.zip lengthStarts := rfl

theorem distanceCodes_eq : distanceCodes = distanceExtraBits.zip distanceStarts := rfl

theorem staticEntry_zip {extras starts : List ℕ} {index extraBits start : ℕ}
    (h : (extras.zip starts)[index]? = some (extraBits, start)) :
    staticEntry extras index = .ok extraBits ∧ staticEntry starts index = .ok start := by
  obtain ⟨hextra, hstart⟩ := List.getElem?_zip_eq_some.mp h
  rw [staticEntry, staticEntry, hextra, hstart]
  exact ⟨rfl, rfl⟩

theorem lengthCodes_some {symbol extraBits first : ℕ}
    (h : lengthCodes[symbol]? = some (extraBits, first)) :
    symbol ≤ 28 ∧ extraBits ≤ 5 ∧ 3 ≤ first ∧ first + 2 ^ extraBits ≤ 259 := by
  have hlt : symbol < lengthCodes.length := (List.getElem?_eq_some_iff.mp h).1
  have hall : ∀ code ∈ lengthCodes, code.1 ≤ 5 ∧ 3 ≤ code.2 ∧ code.2 + 2 ^ code.1 ≤ 259 := by decide
  exact ⟨Nat.le_of_lt_succ hlt, hall _ (List.mem_of_getElem? h)⟩

theorem distanceCodes_some {symbol extraBits first : ℕ}
    (h : distanceCodes[symbol]? = some (extraBits, first)) :
    symbol ≤ 29 ∧ extraBits ≤ 13 ∧ 0 < first := by
  have hlt : symbol < distanceCodes.length := (List.getElem?_eq_some_iff.mp h).1
  have hall : ∀ code ∈ distanceCodes, code.1 ≤ 13 ∧ 0 < code.2 := by decide
  exact ⟨Nat.le_of_lt_succ hlt, hall _ (List.mem_of_getElem? h)⟩

/-! ### One symbol -/

section Symbol

variable (build : Build) {literal distance : List ℕ} {p : InfPass} {history : List UInt8}
  {bits rest : List Bool} {symbol : ℕ}

/-- Reading a symbol of the literal alphabet. -/
theorem passReadLiteralOrLength_spec (h : InSymbols literal distance p history bits)
    (htake : takeSymbol literal bits = some (symbol, rest)) :
    ∃ after, passReadLiteralOrLength p = .ok ⟨withState (withBitstream p after) fun st ↦
        { st with literal := symbol, step := .readLiteralOrLength2 }, [], .proceed⟩ ∧
      after.Faces 7 rest := by
  obtain ⟨table, htable, hdecodes⟩ := h.literalPoints.table
  obtain ⟨after, hread, hafter⟩ :=
    h.faces.readEncodedBits le_rfl hdecodes h.literalPoints.le htake
  refine ⟨after, ?_, hafter⟩
  simp only [passReadLiteralOrLength, htable, hread, bind, Except.bind]
  rfl

/-- A symbol of the literal alphabet is read and stands in the state. -/
theorem readSymbol_spec (h : InSymbols literal distance p history bits)
    (hstep : p.state.step = .processCompressedBlock ∨ p.state.step = .readLiteralOrLength)
    (htake : takeSymbol literal bits = some (symbol, rest)) :
    ∃ q, Leads build p [] q ∧ InSymbols literal distance q history rest ∧
      q.state.step = .readLiteralOrLength2 ∧ q.state.literal = symbol := by
  obtain ⟨after, hpass, hafter⟩ := passReadLiteralOrLength_spec h htake
  refine ⟨withState (withBitstream p after) fun st ↦
    { st with literal := symbol, step := .readLiteralOrLength2 }, Leads.single ?_ rfl rfl,
    ⟨⟨hafter, h.ring, h.fresh, h.statics⟩,
      ⟨h.literalPoints.table, h.literalPoints.le⟩, ⟨h.distancePoints.table, h.distancePoints.le⟩⟩,
    rfl, rfl⟩
  rcases hstep with hstep | hstep <;> simp only [inflateStep, hstep, hpass]

/-- A literal is stored. -/
theorem literal_spec (h : InSymbols literal distance p history bits)
    (hstep : p.state.step = .readLiteralOrLength2) (hliteral : p.state.literal = symbol)
    (hlt : symbol < 256) (hfree : 0 < p.free) :
    ∃ q, Leads build p [UInt8.ofNat symbol] q ∧
      InSymbols literal distance q (history ++ [UInt8.ofNat symbol]) bits ∧
      q.state.step = .readLiteralOrLength := by
  subst hliteral
  refine ⟨withState { p with free := p.free - 1 } fun st ↦
    { st with
      outputBuf := ringPut st.outputBuf (UInt8.ofNat p.state.literal)
      step := .readLiteralOrLength }, Leads.single ?_ ?_ rfl,
    ⟨⟨h.faces, h.ring.put _, h.fresh, h.statics⟩,
      ⟨h.literalPoints.table, h.literalPoints.le⟩, ⟨h.distancePoints.table, h.distancePoints.le⟩⟩,
    rfl⟩
  · simp only [inflateStep, hstep, passReadLiteralOrLength2, if_pos hlt, if_neg hfree.ne',
      infOutbufPutc_eq build h.ring.ptr_le]
    rfl
  · simp only [withState, List.length_singleton]
    omega

/-- The end of the block. -/
theorem endOfBlock_spec (h : InSymbols literal distance p history bits)
    (hstep : p.state.step = .readLiteralOrLength2) (hliteral : p.state.literal = 256) :
    ∃ q, Leads build p [] q ∧ At q history bits ∧ q.state.step = .processNextBlock := by
  refine ⟨withState p fun st ↦ { st with step := .processNextBlock }, Leads.single ?_ rfl rfl,
    ⟨h.faces, h.ring, h.fresh, h.statics⟩, rfl⟩
  simp only [inflateStep, hstep, passReadLiteralOrLength2, hliteral]
  rfl

/-- A length symbol is replaced by its place in the tables. -/
theorem lengthSymbol_spec (h : InSymbols literal distance p history bits)
    (hstep : p.state.step = .readLiteralOrLength2) (hliteral : p.state.literal = symbol)
    (hlow : 256 < symbol) (hhigh : symbol ≤ 285) :
    ∃ q, Leads build p [] q ∧ InSymbols literal distance q history bits ∧
      q.state.step = .readLengthBits ∧ q.state.literal = symbol - 257 := by
  subst hliteral
  refine ⟨withState p fun st ↦
    { st with literal := st.literal - 257, step := .readLengthBits }, Leads.single ?_ rfl rfl,
    ⟨⟨h.faces, h.ring, h.fresh, h.statics⟩,
      ⟨h.literalPoints.table, h.literalPoints.le⟩, ⟨h.distancePoints.table, h.distancePoints.le⟩⟩,
    rfl, rfl⟩
  have hpass : inflateStep build p = passReadLiteralOrLength2 build p := by
    simp only [inflateStep, hstep]
  rw [hpass, passReadLiteralOrLength2, if_neg (by omega), if_neg (by omega), if_neg (by omega)]
  simp only [goto, withState]

/-- The extra bits of a length. -/
theorem lengthBits_spec (h : InSymbols literal distance p history bits)
    (hstep : p.state.step = .readLengthBits) {count : ℕ}
    (htake : takeExtra lengthCodes p.state.literal bits = some (count, rest)) :
    ∃ q, Leads build p [] q ∧ InSymbols literal distance q history rest ∧
      q.state.step = .readDistance ∧ q.state.sequenceLen = count := by
  obtain ⟨extraBits, first, extra, hcode, hbits, rfl⟩ := takeExtra_some htake
  obtain ⟨-, hextra, -, hmax⟩ := lengthCodes_some hcode
  have hlt : extra < 2 ^ extraBits := parseBits_lt (parseBits_eq_done.mpr hbits)
  rw [lengthCodes_eq] at hcode
  obtain ⟨hextraEntry, hstartEntry⟩ := staticEntry_zip hcode
  obtain ⟨after, hread, hafter⟩ := h.faces.readBits le_rfl (show extraBits ≤ 25 by omega) hbits
  have hassert : extra + first < 32 * 1024 := by omega
  refine ⟨withState (withBitstream p after) fun st ↦
    { st with sequenceLen := extra + first, step := .readDistance }, Leads.single ?_ rfl rfl,
    ⟨⟨hafter, h.ring, h.fresh, h.statics⟩,
      ⟨h.literalPoints.table, h.literalPoints.le⟩, ⟨h.distancePoints.table, h.distancePoints.le⟩⟩,
    rfl, Nat.add_comm extra first⟩
  simp only [inflateStep, hstep, passReadLengthBits, hextraEntry, hstartEntry, hread, reading, bind,
    Except.bind, decide_eq_true hassert, Build.assert_true]
  rfl

/-- A symbol of the distance alphabet. -/
theorem distanceSymbol_spec (h : InSymbols literal distance p history bits)
    (hstep : p.state.step = .readDistance) (htake : takeSymbol distance bits = some (symbol, rest))
    (hhigh : symbol ≤ 29) :
    ∃ q, Leads build p [] q ∧ InSymbols literal distance q history rest ∧
      q.state.step = .readDistanceBits ∧ q.state.literal = symbol ∧
      q.state.sequenceLen = p.state.sequenceLen := by
  obtain ⟨table, htable, hdecodes⟩ := h.distancePoints.table
  obtain ⟨after, hread, hafter⟩ :=
    h.faces.readEncodedBits le_rfl hdecodes h.distancePoints.le htake
  refine ⟨withState (withBitstream p after) fun st ↦
    { st with literal := symbol, step := .readDistanceBits }, Leads.single ?_ rfl rfl,
    ⟨⟨hafter, h.ring, h.fresh, h.statics⟩,
      ⟨h.literalPoints.table, h.literalPoints.le⟩, ⟨h.distancePoints.table, h.distancePoints.le⟩⟩,
    rfl, rfl, rfl⟩
  simp only [inflateStep, hstep, passReadDistance, htable, hread, reading, bind, Except.bind]
  exact if_neg (not_lt.mpr hhigh)

/-- The extra bits of a distance. -/
theorem distanceBits_spec (h : InSymbols literal distance p history bits)
    (hstep : p.state.step = .readDistanceBits) {back : ℕ}
    (htake : takeExtra distanceCodes p.state.literal bits = some (back, rest))
    (hback : build.ndebug = true ∨ back < infOutbufSize) :
    ∃ q, Leads build p [] q ∧ InSymbols literal distance q history rest ∧
      q.state.step = .outputSequence ∧ q.state.sequenceDist = back ∧
      q.state.sequenceLen = p.state.sequenceLen := by
  obtain ⟨extraBits, first, extra, hcode, hbits, rfl⟩ := takeExtra_some htake
  obtain ⟨-, hextra, -⟩ := distanceCodes_some hcode
  rw [distanceCodes_eq] at hcode
  obtain ⟨hextraEntry, hstartEntry⟩ := staticEntry_zip hcode
  obtain ⟨after, hread, hafter⟩ := h.faces.readBits le_rfl (show extraBits ≤ 25 by omega) hbits
  -- the assertion does not hold at the distance 32768
  have hassert : build.assert (extra + first < 32 * 1024) = .ok () := by
    rcases hback with hndebug | hback
    · rw [Build.assert, hndebug, Bool.true_or, if_pos rfl]
    · simp only [infOutbufSize] at hback
      rw [decide_eq_true (by omega), Build.assert_true]
  refine ⟨withState (withBitstream p after) fun st ↦
    { st with sequenceDist := extra + first, step := .outputSequence }, Leads.single ?_ rfl rfl,
    ⟨⟨hafter, h.ring, h.fresh, h.statics⟩,
      ⟨h.literalPoints.table, h.literalPoints.le⟩, ⟨h.distancePoints.table, h.distancePoints.le⟩⟩,
    rfl, Nat.add_comm extra first, rfl⟩
  simp only [inflateStep, hstep, passReadDistanceBits, hextraEntry, hstartEntry, hread, reading, bind,
    Except.bind, hassert]
  rfl

/-- A match is copied in one piece where the window has room for it. -/
theorem sequence_spec (h : InSymbols literal distance p history bits)
    (hstep : p.state.step = .outputSequence) {count back : ℕ}
    (hcount : p.state.sequenceLen = count) (hback : p.state.sequenceDist = back) (hpos : 0 < back)
    (hle : back ≤ history.length) (hfits : history.length + count ≤ infOutbufSize)
    (hfree : count ≤ p.free) :
    ∃ q, Leads build p (overlap back history count) q ∧
      InSymbols literal distance q (history ++ overlap back history count) bits ∧
      q.state.step = .readLiteralOrLength := by
  subst hcount hback
  have hptr : p.state.outputBuf.ptr = history.length := by
    have hptr := h.ring.ptr (List.ne_nil_of_length_pos (hpos.trans_le hle))
    simp only [infOutbufSize] at hptr hfits
    omega
  have hcopyable : Copyable p.state.outputBuf p.state.sequenceDist p.state.sequenceLen :=
    ⟨fun _ ↦ by omega, fun hwrapped ↦ absurd hwrapped (by omega)⟩
  have hread := infOutbufRead_ring build h.ring hpos hle (by omega) hcopyable
  refine ⟨withState { p with free := p.free - p.state.sequenceLen } fun st ↦
    { st with
      outputBuf := (overlap p.state.sequenceDist history p.state.sequenceLen).foldl ringPut st.outputBuf
      sequenceLen := st.sequenceLen - st.sequenceLen
      step := .readLiteralOrLength }, Leads.single ?_ ?_ rfl,
    ⟨⟨h.faces, h.ring.foldl_put _, h.fresh, h.statics⟩,
      ⟨h.literalPoints.table, h.literalPoints.le⟩, ⟨h.distancePoints.table, h.distancePoints.le⟩⟩,
    rfl⟩
  · simp only [inflateStep, hstep, passOutputSequence, min_eq_left hfree, hread, decide_eq_true hfree]
    rfl
  · simp only [withState, length_overlap]
    omega

/-- A match, from its length symbol on. -/
theorem match_spec (h : InSymbols literal distance p history bits)
    (hstep : p.state.step = .readLiteralOrLength2) (hliteral : p.state.literal = symbol)
    (hlow : 256 < symbol) {count back : ℕ}
    (htake : takeMatch distance symbol bits = some ((count, back), rest))
    (hle : back ≤ history.length) (hfits : history.length + count ≤ infOutbufSize)
    (hfree : count ≤ p.free) :
    ∃ q, Leads build p (overlap back history count) q ∧
      InSymbols literal distance q (history ++ overlap back history count) rest ∧
      q.state.step = .readLiteralOrLength := by
  obtain ⟨bits₁, distanceSymbol, bits₂, hcount, hsymbol, hback⟩ := takeMatch_some htake
  obtain ⟨_, first, _, hcode, -, hsum⟩ := takeExtra_some hcount
  obtain ⟨hhigh, -, hmin, -⟩ := lengthCodes_some hcode
  obtain ⟨_, _, _, hcode', -, hsum'⟩ := takeExtra_some hback
  obtain ⟨hhigh', -, hpos⟩ := distanceCodes_some hcode'
  obtain ⟨q₁, hlead₁, h₁, hstep₁, hliteral₁⟩ :=
    lengthSymbol_spec build h hstep hliteral hlow (by omega)
  obtain ⟨q₂, hlead₂, h₂, hstep₂, hlen₂⟩ := lengthBits_spec build h₁ hstep₁
    (hliteral₁ ▸ hcount)
  obtain ⟨q₃, hlead₃, h₃, hstep₃, hliteral₃, hlen₃⟩ :=
    distanceSymbol_spec build h₂ hstep₂ hsymbol hhigh'
  -- a match at the distance 32768 would not fit behind the history
  obtain ⟨q₄, hlead₄, h₄, hstep₄, hdist₄, hlen₄⟩ := distanceBits_spec build h₃ hstep₃
    (hliteral₃ ▸ hback) (.inr (by omega))
  have hfree₄ : count ≤ q₄.free := by
    have hone := hlead₁.free
    have htwo := hlead₂.free
    have hthree := hlead₃.free
    have hfour := hlead₄.free
    rw [List.length_nil] at hone htwo hthree hfour
    omega
  obtain ⟨q, hlead, hq, hstep'⟩ := sequence_spec build h₄ hstep₄
    (hlen₄.trans (hlen₃.trans hlen₂)) hdist₄ (by omega) hle hfits hfree₄
  exact ⟨q, hlead₁.trans (hlead₂.trans (hlead₃.trans (hlead₄.trans hlead))), hq, hstep'⟩

end Symbol

/-! ### All symbols -/

/-- The passes over the symbols of a block store what the reference decoder outputs. -/
theorem symbols_spec (build : Build) {literal distance : List ℕ} (fuel : ℕ) :
    ∀ {p : InfPass} {history stored : List UInt8} {bits rest : List Bool},
      InSymbols literal distance p history bits →
      p.state.step = .processCompressedBlock ∨ p.state.step = .readLiteralOrLength →
      decodeSymbols literal distance fuel history bits = some (history ++ stored, rest) →
      history.length + stored.length ≤ infOutbufSize → stored.length ≤ p.free →
        ∃ q, Leads build p stored q ∧ At q (history ++ stored) rest ∧
          q.state.step = .processNextBlock := by
  induction fuel with
  | zero => intro p history stored bits rest _ _ hdecode; cases hdecode
  | succ fuel ih =>
    intro p history stored bits rest h hstep hdecode hfits hfree
    obtain ⟨symbol, bits', hsymbol, hcases⟩ := decodeSymbols_succ hdecode
    obtain ⟨q, hlead, hq, hstep', hliteral⟩ := readSymbol_spec build h hstep hsymbol
    have hsame : q.free = p.free := hlead.free
    -- what is left to store, behind the bytes of the first symbol
    have hgo : ∀ {r : InfPass} {first : List UInt8} {bits₁ : List Bool}, Leads build q first r →
        InSymbols literal distance r (history ++ first) bits₁ →
        r.state.step = .readLiteralOrLength →
        decodeSymbols literal distance fuel (history ++ first) bits₁ = some (history ++ stored, rest) →
          ∃ t, Leads build p stored t ∧ At t (history ++ stored) rest ∧
            t.state.step = .processNextBlock := by
      intro r first bits₁ hlead' hr hstep'' hrest
      obtain ⟨later, hlater⟩ := decodeSymbols_grows fuel hrest
      rw [List.append_assoc, List.append_cancel_left_eq] at hlater
      subst hlater
      have hfree' := hlead'.free
      rw [List.length_append] at hfits hfree
      obtain ⟨t, hlead'', ht, hstep₃⟩ := ih hr (.inr hstep'')
        (by rwa [List.append_assoc]) (by rw [List.length_append]; omega) (by omega)
      exact ⟨t, hlead.trans (hlead'.trans hlead''), by rwa [← List.append_assoc], hstep₃⟩
    rcases hcases with ⟨hlt, hrest⟩ | ⟨rfl, hnil, rfl⟩ |
      ⟨hlow, count, back, bits₁, hmatch, hback, hrest⟩
    · have hlong := (decodeSymbols_grows fuel hrest).length_le
      rw [List.length_append, List.length_append, List.length_singleton] at hlong
      obtain ⟨r, hlead', hr, hstep''⟩ :=
        literal_spec build hq hstep' hliteral hlt (by omega)
      exact hgo hlead' hr hstep'' hrest
    · obtain rfl := List.append_right_eq_self.mp hnil
      obtain ⟨r, hlead', hr, hstep''⟩ := endOfBlock_spec build hq hstep' hliteral
      exact ⟨r, hlead.trans hlead', by rwa [List.append_nil], hstep''⟩
    · have hlong := (decodeSymbols_grows fuel hrest).length_le
      rw [List.length_append, List.length_append, length_overlap] at hlong
      obtain ⟨r, hlead', hr, hstep''⟩ := match_spec build hq hstep' hliteral hlow hmatch
        hback (by omega) (by omega)
      exact hgo hlead' hr hstep'' hrest

end ZephyrThrift.Muzic
