import ZephyrThrift.Foundation.Copies
import ZephyrThrift.Muzic.FlushedStream

/-!
# Streams longer than the window

The decoder on streams of any decoded size. Literals and stored bytes are never in the way of the
ring, and whether a match can be copied depends on its length, its distance and the number of bytes
in front of it (`Manageable`): it must not cross the end of the ring from in front of the write
pointer, nor run into itself a second time from behind it. A call with a well-formed stream ends the
stream if and only if all its copies are manageable (`inflate_decodes_iff`), and so does one with what
`deflate` made of a chunk of any size (`inflate_finished_iff`).
-/

set_option autoImplicit false
set_option relaxedAutoImplicit false

namespace ZephyrThrift.Muzic

open Foundation

/-- Where the write pointer stands behind so many bytes. -/
def ringPtr (length : ℕ) : ℕ := if length = 0 then 0 else (length - 1) % infOutbufSize + 1

/-- The copies that the inflater can make: the assertion on the distance holds, a source in front of
the write pointer ends within the ring, and one behind it ends in front of what the first piece of
the copy has reached. -/
def Manageable (build : Build) (copy : Copy) : Prop :=
  (build.ndebug = true ∨ copy.back < infOutbufSize) ∧
    (copy.back ≤ ringPtr copy.front → ringPtr copy.front - copy.back + copy.count ≤ infOutbufSize) ∧
    (ringPtr copy.front < copy.back → copy.count ≤ 2 * copy.back - ringPtr copy.front)

instance (build : Build) (copy : Copy) : Decidable (Manageable build copy) :=
  inferInstanceAs (Decidable (_ ∧ _ ∧ _))

theorem RingHolds.ptr_eq {infbuf : InfOutbuf} {history : List UInt8} (h : RingHolds infbuf history) :
    infbuf.ptr = ringPtr history.length := by
  rw [ringPtr]
  split_ifs with hlength
  · exact h.ptr_nil (List.length_eq_zero_iff.mp hlength)
  · exact h.ptr fun hnil ↦ hlength (by rw [hnil]; rfl)

/-! ### Passes that come through, or do not -/

section Carrying

variable {build : Build} {p q : InfPass} {first second : List UInt8} {copies copies' : List Copy}
  {after middle : InfPass → Prop}

/-- The loop does not come to the end of the stream. -/
def Fails (build : Build) (p : InfPass) : Prop :=
  ∃ report, Runs (inflateStep build) p report ∧
    ∀ e, report = .ok e → e.signal ≠ .halt .streamEnd

theorem Fails.of_reaches (hfails : Fails build q) (h : Reaches (inflateStep build) p first q) :
    Fails build p := by
  obtain ⟨report, hruns, hnot⟩ := hfails
  refine ⟨_, h.runs hruns, fun e he ↦ ?_⟩
  cases report with
  | error fault => cases he
  | ok last =>
    cases he
    exact hnot last rfl

/-- From here some bytes are stored if all copies are manageable, and otherwise the loop fails. -/
structure Carries (build : Build) (p : InfPass) (stored : List UInt8) (copies : List Copy)
    (after : InfPass → Prop) : Prop where
  through : (∀ copy ∈ copies, Manageable build copy) →
    ∃ q, Reaches (inflateStep build) p stored q ∧ q.free + stored.length = p.free ∧ after q
  stuck : (∃ copy ∈ copies, ¬ Manageable build copy) → Fails build p

theorem Carries.of_reaches (h : Reaches (inflateStep build) p first q)
    (hfree : q.free + first.length = p.free) (hrest : Carries build q second copies after) :
    Carries build p (first ++ second) copies after where
  through hall := by
    obtain ⟨r, hreach, hsame, hafter⟩ := hrest.through hall
    refine ⟨r, h.trans hreach, ?_, hafter⟩
    rw [List.length_append]
    omega
  stuck hsome := (hrest.stuck hsome).of_reaches h

theorem Carries.bind (h : Carries build p first copies middle)
    (hnext : ∀ q, q.free + first.length = p.free → middle q →
      Carries build q second copies' after) :
    Carries build p (first ++ second) (copies ++ copies') after := by
  by_cases hfirst : ∀ copy ∈ copies, Manageable build copy
  · obtain ⟨q, hreach, hsame, hmiddle⟩ := h.through hfirst
    have hrest := Carries.of_reaches hreach hsame (hnext q hsame hmiddle)
    refine ⟨fun hall ↦ hrest.through fun copy hcopy ↦
      hall copy (List.mem_append_right _ hcopy), fun hsome ↦ ?_⟩
    obtain ⟨copy, hcopy, hnot⟩ := hsome
    rcases List.mem_append.mp hcopy with hcopy | hcopy
    · exact absurd (hfirst copy hcopy) hnot
    · exact hrest.stuck ⟨copy, hcopy, hnot⟩
  · refine ⟨fun hall ↦ absurd (fun copy hcopy ↦ hall copy (List.mem_append_left _ hcopy)) hfirst,
      fun _ ↦ h.stuck ?_⟩
    obtain ⟨copy, hnot⟩ := not_forall.mp hfirst
    exact ⟨copy, Classical.not_imp.mp hnot⟩

theorem Carries.after_leads (h : Leads build p first q)
    (hrest : Carries build q second copies after) : Carries build p (first ++ second) copies after :=
  Carries.of_reaches h.reaches h.free hrest

theorem Carries.of_leads (h : Leads build p first q) (hafter : after q) :
    Carries build p first [] after where
  through _ := ⟨q, h.reaches, h.free, hafter⟩
  stuck hsome := by
    obtain ⟨copy, hcopy, -⟩ := hsome
    cases hcopy

end Carrying

/-! ### Matches -/

theorem distanceCodes_far {symbol extraBits first : ℕ}
    (h : distanceCodes[symbol]? = some (extraBits, first)) :
    first + 2 ^ extraBits ≤ infOutbufSize + 1 := by
  have hall : ∀ code ∈ distanceCodes, code.2 + 2 ^ code.1 ≤ infOutbufSize + 1 := by decide
  exact hall _ (List.mem_of_getElem? h)

/-- Behind a symbol, in a block with that flag. -/
structure BehindSymbol (literal distance : List ℕ) (history : List UInt8) (bits : List Bool)
    (last : ℕ) (p : InfPass) : Prop extends InSymbols literal distance p history bits where
  step : p.state.step = .readLiteralOrLength
  isLastBlock : p.state.isLastBlock = last

/-- Behind a block with that flag. -/
structure BehindBlock (history : List UInt8) (bits : List Bool) (last : ℕ) (p : InfPass) : Prop
    extends At p history bits where
  step : p.state.step = .processNextBlock
  isLastBlock : p.state.isLastBlock = last

section Matches

variable {ndebug : Bool} {literal distance : List ℕ} {p : InfPass} {history : List UInt8}
  {bits rest : List Bool} {symbol count back last : ℕ}

/-- In front of a copy, the pass copies if the ring allows it, and fails otherwise. -/
theorem sequence_carries (h : InSymbols literal distance p history bits)
    (hstep : p.state.step = .outputSequence) (hlast : p.state.isLastBlock = last)
    (hcount : p.state.sequenceLen = count) (hback : p.state.sequenceDist = back) (hpos : 0 < back)
    (hle : back ≤ history.length) (hsize : back ≤ infOutbufSize) (hfree : count ≤ p.free)
    (hassert : ndebug = true ∨ back < infOutbufSize) :
    Carries ⟨ndebug, none⟩ p (overlap back history count) [⟨history.length, back, count⟩]
      (BehindSymbol literal distance (history ++ overlap back history count) bits last) := by
  subst hcount hback hlast
  have hptr := h.ring.ptr_eq
  have hcopyable : Copyable p.state.outputBuf p.state.sequenceDist p.state.sequenceLen ↔
      Manageable ⟨ndebug, none⟩ ⟨history.length, p.state.sequenceDist, p.state.sequenceLen⟩ := by
    rw [Copyable, Manageable, hptr]
    exact ⟨fun hcopyable ↦ ⟨hassert, hcopyable⟩, fun hmanageable ↦ hmanageable.2⟩
  have hpass : inflateStep ⟨ndebug, none⟩ p = passOutputSequence ⟨ndebug, none⟩ p := by
    simp only [inflateStep, hstep]
  refine ⟨fun hall ↦ ?_, fun hsome ↦ ?_⟩
  · have hread := infOutbufRead_ring ⟨ndebug, none⟩ h.ring hpos hle hsize
      (hcopyable.mpr (hall _ List.mem_cons_self))
    have hproceed : inflateStep ⟨ndebug, none⟩ p =
        .ok ⟨withState { p with free := p.free - p.state.sequenceLen } fun st ↦
          { st with
            outputBuf :=
              (overlap p.state.sequenceDist history p.state.sequenceLen).foldl ringPut st.outputBuf
            sequenceLen := st.sequenceLen - st.sequenceLen
            step := .readLiteralOrLength },
          overlap p.state.sequenceDist history p.state.sequenceLen, .proceed⟩ := by
      rw [hpass, passOutputSequence, min_eq_left hfree, hread]
      simp only [decide_eq_true hfree]
      rfl
    refine ⟨_, Reaches.single hproceed rfl, ?_, ⟨⟨⟨h.faces, h.ring.foldl_put _, h.fresh, h.statics⟩,
      ⟨h.literalPoints.table, h.literalPoints.le⟩, ⟨h.distancePoints.table, h.distancePoints.le⟩⟩,
      rfl, rfl⟩⟩
    simp only [withState, length_overlap]
    omega
  · obtain ⟨copy, hcopy, hnot⟩ := hsome
    obtain rfl := List.mem_singleton.mp hcopy
    rw [← hcopyable, Copyable, not_and_or] at hnot
    rcases hnot with hnot | hnot
    · obtain ⟨hplain, hbeyond⟩ := Classical.not_imp.mp hnot
      refine ⟨.error Fault.ringIndex, .fault ?_, fun e he ↦ by cases he⟩
      rw [hpass, passOutputSequence, min_eq_left hfree,
        infOutbufRead_beyond h.ring.ptr_le hplain (not_le.mp hbeyond)]
    · obtain ⟨hwrapped, hbeyond⟩ := Classical.not_imp.mp hnot
      obtain ⟨bytes, after, hread⟩ := infOutbufRead_refused ⟨ndebug, none⟩ h.ring hpos hle hsize
        hwrapped (not_le.mp hbeyond)
      have hfatal : ∃ e, inflateStep ⟨ndebug, none⟩ p = .ok e ∧
          e.signal = .halt (.dataError none) := by
        rw [hpass, passOutputSequence, min_eq_left hfree, hread]
        exact ⟨_, rfl, rfl⟩
      obtain ⟨e, he, hsignal⟩ := hfatal
      refine ⟨.ok e, .stop he (by rw [hsignal]; simp), fun e' he' ↦ ?_⟩
      cases he'
      rw [hsignal]
      simp

/-- The assertion on the distance fails at 32768. -/
theorem distanceBits_asserts (h : InSymbols literal distance p history bits)
    (hstep : p.state.step = .readDistanceBits)
    (htake : takeExtra distanceCodes p.state.literal bits = some (back, rest))
    (hback : infOutbufSize ≤ back) : inflateStep ⟨false, none⟩ p = .error .assertion := by
  obtain ⟨extraBits, first, extra, hcode, hbits, rfl⟩ := takeExtra_some htake
  obtain ⟨-, hextra, -⟩ := distanceCodes_some hcode
  rw [distanceCodes_eq] at hcode
  obtain ⟨hextraEntry, hstartEntry⟩ := staticEntry_zip hcode
  obtain ⟨after, hread, -⟩ := h.faces.readBits le_rfl (show extraBits ≤ 25 by omega) hbits
  have hassert : Build.assert ⟨false, none⟩ (extra + first < 32 * 1024) = .error .assertion := by
    simp only [infOutbufSize] at hback
    rw [Build.assert, decide_eq_false (by omega)]
    rfl
  simp only [inflateStep, hstep, passReadDistanceBits, hextraEntry, hstartEntry, hread, reading, bind,
    Except.bind, hassert]

/-- A match, from its length symbol on. -/
theorem match_carries (h : InSymbols literal distance p history bits)
    (hstep : p.state.step = .readLiteralOrLength2) (hlast : p.state.isLastBlock = last)
    (hliteral : p.state.literal = symbol) (hlow : 256 < symbol)
    (htake : takeMatch distance symbol bits = some ((count, back), rest))
    (hle : back ≤ history.length) (hfree : count ≤ p.free) :
    Carries ⟨ndebug, none⟩ p (overlap back history count) [⟨history.length, back, count⟩]
      (BehindSymbol literal distance (history ++ overlap back history count) rest last) := by
  obtain ⟨bits₁, distanceSymbol, bits₂, hcount, hsymbol, hback⟩ := takeMatch_some htake
  obtain ⟨_, first, _, hcode, -, hsum⟩ := takeExtra_some hcount
  obtain ⟨hhigh, -, hmin, -⟩ := lengthCodes_some hcode
  obtain ⟨_, _, _, hcode', hbits, hsum'⟩ := takeExtra_some hback
  obtain ⟨hhigh', -, hpos⟩ := distanceCodes_some hcode'
  have hfar := distanceCodes_far hcode'
  have hlt := parseBits_lt (parseBits_eq_done.mpr hbits)
  obtain ⟨q₁, hlead₁, h₁, hstep₁, hliteral₁⟩ :=
    lengthSymbol_spec ⟨ndebug, none⟩ h hstep hliteral hlow (by omega)
  obtain ⟨q₂, hlead₂, h₂, hstep₂, hlen₂⟩ := lengthBits_spec ⟨ndebug, none⟩ h₁ hstep₁
    (hliteral₁ ▸ hcount)
  obtain ⟨q₃, hlead₃, h₃, hstep₃, hliteral₃, hlen₃⟩ :=
    distanceSymbol_spec ⟨ndebug, none⟩ h₂ hstep₂ hsymbol hhigh'
  have hlead := hlead₁.trans (hlead₂.trans hlead₃)
  by_cases hassert : ndebug = true ∨ back < infOutbufSize
  · obtain ⟨q₄, hlead₄, h₄, hstep₄, hdist₄, hlen₄⟩ :=
      distanceBits_spec ⟨ndebug, none⟩ h₃ hstep₃ (hliteral₃ ▸ hback) hassert
    have hfree₄ := (hlead.trans hlead₄).free
    simp only [List.append_nil, List.length_nil, Nat.add_zero] at hfree₄
    have hlast₄ := (hlead.trans hlead₄).isLastBlock
    exact Carries.after_leads (hlead.trans hlead₄) (sequence_carries h₄ hstep₄ (hlast₄.trans hlast)
      (hlen₄.trans (hlen₃.trans hlen₂)) hdist₄ (by omega) hle (by omega) (by omega) hassert)
  · obtain ⟨hndebug, hlarge⟩ := not_or.mp hassert
    obtain rfl := Bool.eq_false_of_not_eq_true hndebug
    refine ⟨fun hall ↦ absurd (hall _ List.mem_cons_self).1 hassert, fun _ ↦ ?_⟩
    exact Fails.of_reaches ⟨.error Fault.assertion, .fault (distanceBits_asserts h₃ hstep₃
      (hliteral₃ ▸ hback) (not_lt.mp hlarge)), fun e he ↦ by cases he⟩ hlead.reaches

end Matches

/-! ### Blocks -/

/-- The passes over the symbols of a block, with the copies that its matches ask for. -/
theorem symbols_carries {ndebug : Bool} {literal distance : List ℕ} {last : ℕ} (fuel : ℕ) :
    ∀ {p : InfPass} {history stored : List UInt8} {bits rest : List Bool} {copies : List Copy},
      InSymbols literal distance p history bits →
      p.state.step = .processCompressedBlock ∨ p.state.step = .readLiteralOrLength →
      p.state.isLastBlock = last →
      decodeSymbols literal distance fuel history bits = some (history ++ stored, rest) →
      symbolCopies literal distance fuel history.length bits = some copies →
      stored.length ≤ p.free →
        Carries ⟨ndebug, none⟩ p stored copies (BehindBlock (history ++ stored) rest last) := by
  induction fuel with
  | zero => intro p history stored bits rest copies _ _ _ hdecode; cases hdecode
  | succ fuel ih =>
    intro p history stored bits rest copies h hstep hlast hdecode hcopies hfree
    obtain ⟨symbol, bits', hsymbol, hcases⟩ := decodeSymbols_succ hdecode
    obtain ⟨q, hlead, hq, hstep', hliteral⟩ := readSymbol_spec ⟨ndebug, none⟩ h hstep hsymbol
    have hsame : q.free = p.free := hlead.free
    have hlast' := hlead.isLastBlock.trans hlast
    refine Carries.after_leads hlead ?_
    -- what is left to store, behind the bytes of the first symbol
    have hlater : ∀ {first : List UInt8} {bits₁ : List Bool},
        decodeSymbols literal distance fuel (history ++ first) bits₁ = some (history ++ stored, rest) →
          ∃ later, stored = first ++ later := by
      intro first bits₁ hrest
      obtain ⟨later, hlater⟩ := decodeSymbols_grows fuel hrest
      rw [List.append_assoc, List.append_cancel_left_eq] at hlater
      exact ⟨later, hlater.symm⟩
    rcases hcases with ⟨hlt, hrest⟩ | ⟨rfl, hnil, rfl⟩ |
      ⟨hlow, count, back, bits₁, hmatch, hback, hrest⟩
    · obtain ⟨later, rfl⟩ := hlater hrest
      rw [symbolCopies_literal fuel _ hsymbol hlt] at hcopies
      rw [← List.append_assoc] at hrest ⊢
      rw [List.length_append, List.length_singleton] at hfree
      obtain ⟨r, hlead', hr, hstep''⟩ :=
        literal_spec ⟨ndebug, none⟩ hq hstep' hliteral hlt (by omega)
      have hfree' := hlead'.free
      rw [List.length_singleton] at hfree'
      refine Carries.after_leads hlead' (ih hr (.inr hstep'') (hlead'.isLastBlock.trans hlast') hrest
        ?_ (by omega))
      rwa [List.length_append, List.length_singleton]
    · obtain rfl := List.append_right_eq_self.mp hnil
      rw [symbolCopies_end fuel _ hsymbol] at hcopies
      cases hcopies
      obtain ⟨r, hlead', hr, hstep''⟩ := endOfBlock_spec ⟨ndebug, none⟩ hq hstep' hliteral
      rw [List.append_nil]
      exact Carries.of_leads hlead' ⟨hr, hstep'', hlead'.isLastBlock.trans hlast'⟩
    · obtain ⟨later, rfl⟩ := hlater hrest
      rw [symbolCopies_match fuel _ hsymbol hlow hmatch] at hcopies
      obtain ⟨more, hmore, rfl⟩ := Option.map_eq_some_iff.mp hcopies
      rw [← List.append_assoc] at hrest ⊢
      rw [List.length_append, length_overlap] at hfree
      have hone : Carries ⟨ndebug, none⟩ q _ _ _ :=
        match_carries hq hstep' hlast' hliteral hlow hmatch hback (by omega)
      refine hone.bind fun r hfree' hr ↦ ?_
      rw [length_overlap] at hfree'
      refine ih hr.toInSymbols (.inr hr.step) hr.isLastBlock hrest ?_ (by omega)
      rwa [List.length_append, length_overlap]

section Block

variable {ndebug : Bool} {p : InfPass} {history stored : List UInt8}
  {bits bits₁ bits₂ rest : List Bool} {final blockType last : ℕ} {copies : List Copy}

/-- One block, behind its header. -/
theorem blockContent_carries (h : At p history bits) (hstep : p.state.step = blockStep blockType)
    (hlast : p.state.isLastBlock = last)
    (hdecode : decodeBlock blockType history bits = some (history ++ stored, rest))
    (hcopies : blockCopies blockType history.length bits = some copies)
    (hfree : stored.length ≤ p.free) :
    Carries ⟨ndebug, none⟩ p stored copies (BehindBlock (history ++ stored) rest last) := by
  have hvalid := blockType_lt hdecode
  obtain rfl | rfl | rfl : blockType = 0 ∨ blockType = 1 ∨ blockType = 2 := by omega
  · cases hcopies
    obtain ⟨count, bits₁, bits₂, bytes, hcount, hcomplement, hbytes, heq⟩ := decodeStored_some hdecode
    obtain rfl := List.append_cancel_left heq
    obtain ⟨q, hlead, hq, hstep', hlen, hsize⟩ :=
      storedLengths_spec ⟨ndebug, none⟩ h hstep hcount hcomplement
    have hfree' : q.free = p.free := hlead.free
    obtain ⟨r, hlead', hr, hstep''⟩ := storedBytes_spec ⟨ndebug, none⟩ hq hstep' hsize
      (hlen ▸ hbytes) (by omega)
    have hboth := hlead.trans hlead'
    exact Carries.of_leads hboth ⟨hr, hstep'', hboth.isLastBlock.trans hlast⟩
  · obtain ⟨q, hlead, hstep', hq, -⟩ := fixedDecoders_spec ⟨ndebug, none⟩ h hstep
    have hfree' : q.free = p.free := hlead.free
    exact Carries.after_leads hlead (symbols_carries _ hq (.inl hstep')
      (hlead.isLastBlock.trans hlast) hdecode hcopies (by omega))
  · obtain ⟨literal, distance, bits', hparse, hsymbols⟩ := decodeBlock_dynamic hdecode
    rw [blockCopies_dynamic hparse] at hcopies
    obtain ⟨q, hlead, hstep', hq⟩ := dynamicDecoders_spec ⟨ndebug, none⟩ h hstep hparse
    have hfree' : q.free = p.free := hlead.free
    exact Carries.after_leads hlead (symbols_carries _ hq (.inl hstep')
      (hlead.isLastBlock.trans hlast) hsymbols hcopies (by omega))

/-- One block. -/
theorem block_carries (h : AtBlock p history bits) (hfinal : takeBits 1 bits = some (final, bits₁))
    (htype : takeBits 2 bits₁ = some (blockType, bits₂))
    (hdecode : decodeBlock blockType history bits₂ = some (history ++ stored, rest))
    (hcopies : blockCopies blockType history.length bits₂ = some copies)
    (hfree : stored.length ≤ p.free) :
    Carries ⟨ndebug, none⟩ p stored copies (BehindBlock (history ++ stored) rest final) := by
  obtain ⟨q, hreach, hq, hsame, hstep, hlast⟩ :=
    blockHeader_spec ⟨ndebug, none⟩ h hfinal htype (blockType_lt hdecode)
  exact Carries.of_reaches hreach hsame
    (blockContent_carries hq hstep hlast hdecode hcopies (by omega))

end Block

/-- The blocks up to the final one. -/
theorem blocks_carries {ndebug : Bool} (fuel : ℕ) :
    ∀ {p : InfPass} {history stored : List UInt8} {bits rest : List Bool} {copies : List Copy},
      AtBlock p history bits → decodeBlocks fuel history bits = some (history ++ stored, rest) →
      blocksCopies fuel history bits = some copies → stored.length ≤ p.free →
        Carries ⟨ndebug, none⟩ p stored copies (BehindBlock (history ++ stored) rest 1) := by
  induction fuel with
  | zero => intro p history stored bits rest copies _ hdecode; cases hdecode
  | succ fuel ih =>
    intro p history stored bits rest copies h hdecode hcopies hfree
    obtain ⟨final, bits₁, blockType, bits₂, output, bits₃, hfinal, htype, hblock, hcases⟩ :=
      decodeBlocks_succ hdecode
    obtain ⟨here, hhere⟩ := exists_blockCopies hblock
    rw [blocksCopies_succ hfinal htype hblock hhere] at hcopies
    rcases hcases with ⟨rfl, rfl, rfl⟩ | ⟨hmore, hrest⟩
    · cases hcopies
      exact block_carries h hfinal htype hblock hhere hfree
    · rw [if_neg hmore] at hcopies
      obtain ⟨more, hmores, rfl⟩ := Option.map_eq_some_iff.mp hcopies
      obtain ⟨first, rfl⟩ := decodeBlock_grows hblock
      obtain ⟨later, hlater⟩ := decodeBlocks_grows fuel hrest
      rw [List.append_assoc, List.append_cancel_left_eq] at hlater
      subst hlater
      rw [← List.append_assoc] at hrest ⊢
      rw [List.length_append] at hfree
      have hbit : final < 2 ^ 1 := parseBits_lt (parseBits_eq_done.mpr hfinal)
      refine Carries.bind (block_carries h hfinal htype hblock hhere (by omega)) fun q hfree' hq ↦ ?_
      exact ih ⟨hq.toAt, hq.step, hq.isLastBlock.trans (by omega)⟩ hrest hmores (by omega)

/-! ### Whole streams -/

/-- The copies of a well-formed stream are those of its blocks. -/
theorem blocksCopies_body {flg : UInt8} {body output : List UInt8} {rest : List Bool}
    (h : decodeBlocks (8 * body.length + 1) [] (bytesBits body) = some (output, rest)) :
    blocksCopies (8 * body.length + 1) [] (bytesBits body) =
      some (zlibCopies (0x78 :: flg :: body)) := by
  obtain ⟨copies, hcopies⟩ := exists_blocksCopies _ h
  rw [zlibCopies, hcopies, Option.getD_some]

theorem codeAfter_eq_streamEnd (signal : Signal BlockResult) :
    codeAfter signal = .streamEnd ↔ signal = .halt .streamEnd := by
  constructor
  · intro h
    unfold codeAfter at h
    split at h <;> first | rfl | cases h
  · rintro rfl
    rfl

section Streams

variable {ndebug : Bool} {p : InfPass} {body output trailer : List UInt8} {bits : List Bool}
  {copies : List Copy}

/-- A body that ends with a final block and four bytes ends the stream if its copies are manageable,
and otherwise does not. -/
theorem body_carries (h : At p [] (bytesBits p.input)) (hstep : p.state.step = .start) {fuel : ℕ}
    (hblocks : decodeBlocks fuel [] (bytesBits p.input) = some (output, bits))
    (hcopies : blocksCopies fuel [] (bytesBits p.input) = some copies)
    (htrailer : takeBytes 4 (alignBits bits) = some (trailer, [])) (hfree : output.length ≤ p.free) :
    ((∀ copy ∈ copies, Manageable ⟨ndebug, none⟩ copy) →
        ∃ e, Runs (inflateStep ⟨ndebug, none⟩) p (.ok e) ∧ e.signal = .halt .streamEnd ∧
          e.stored = output ∧ e.pass.input = []) ∧
      ((∃ copy ∈ copies, ¬ Manageable ⟨ndebug, none⟩ copy) → Fails ⟨ndebug, none⟩ p) := by
  obtain ⟨p', hreach, hp', hsame⟩ := start_spec ⟨ndebug, none⟩ h hstep
  have hbody := Carries.of_reaches hreach hsame
    (@blocks_carries ndebug fuel p' [] output _ _ _ hp' hblocks hcopies (by omega))
  refine ⟨fun hall ↦ ?_, hbody.stuck⟩
  obtain ⟨q, hreach', -, hq⟩ := hbody.through hall
  have halign := alignBits_of_faces hq.faces
  have hbehind : takeBytes 4 (alignBits bits) = some (trailer, bytesBits []) := htrailer
  rw [halign] at hbehind
  obtain ⟨rest, hinput, hlength, hrest⟩ := takeBytes_bytesBits hbehind
  obtain rfl : rest = [] := bytesBits_injective hrest.symm
  rw [hinput] at halign
  obtain ⟨e, hruns, hsignal, hstored, hleft, -⟩ := trailer_spec ⟨ndebug, none⟩ hq.toAt hq.step
    (by rw [hq.isLastBlock]; decide) halign hlength
  refine ⟨e.after output, hreach'.runs hruns, hsignal, ?_, hleft⟩
  rw [Effect.after_stored, hstored, List.append_nil]

end Streams

/-- One call on a fresh inflater, with a stream that ends with a final block and four bytes. -/
theorem inflate_closed_iff {ndebug : Bool} {statics : Statics} (hstatics : SoundStatics statics)
    (heap : InfState) {memory : Memory} {strm : ZStream} {flg : UInt8}
    {body output trailer : List UInt8} {bits : List Bool}
    (hinput : memory.bytes strm.nextIn strm.availIn = 0x78 :: flg :: body)
    (hlength : strm.availIn < 2 ^ 32)
    (hblocks : decodeBlocks (8 * body.length + 1) [] (bytesBits body) = some (output, bits))
    (htrailer : takeBytes 4 (alignBits bits) = some (trailer, [])) (hpos : 0 < strm.availOut)
    (hout : output.length ≤ strm.availOut) :
    ((∃ r, inflate ⟨ndebug, none⟩ memory strm (inflateInit statics heap) = .ok r ∧
        r.code = .streamEnd) ↔
          ∀ copy ∈ zlibCopies (0x78 :: flg :: body), Manageable ⟨ndebug, none⟩ copy) ∧
      ∀ r, inflate ⟨ndebug, none⟩ memory strm (inflateInit statics heap) = .ok r →
        r.code = .streamEnd → r.stored = output ∧ r.strm.nextIn = strm.nextIn + strm.availIn ∧
          r.strm.availIn = 0 := by
  have hnil : body ≠ [] := by
    rintro rfl
    cases hblocks
  obtain ⟨hthrough, hstuck⟩ := @body_carries ndebug
    ⟨(inflateInit statics heap).core, body, strm.availOut⟩ output trailer bits _
    (at_fresh hstatics heap body strm.availOut) rfl _ hblocks (blocksCopies_body hblocks) htrailer hout
  have hends : (∀ copy ∈ zlibCopies (0x78 :: flg :: body), Manageable ⟨ndebug, none⟩ copy) →
      ∃ r, inflate ⟨ndebug, none⟩ memory strm (inflateInit statics heap) = .ok r ∧
        r.code = .streamEnd ∧ r.stored = output ∧ r.strm.nextIn = strm.nextIn + strm.availIn ∧
        r.strm.availIn = 0 := by
    intro hall
    obtain ⟨e, hruns, hsignal, hstored, hleft⟩ := hthrough hall
    obtain ⟨r, hr, hcode, hstored', hnext, havail, -⟩ :=
      inflate_fresh ⟨ndebug, none⟩ heap hnil hinput hlength hpos hruns
    rw [hleft] at hnext havail
    exact ⟨r, hr, by rw [hcode, hsignal]; rfl, hstored'.trans hstored, hnext, havail⟩
  have hfails : (∃ copy ∈ zlibCopies (0x78 :: flg :: body), ¬ Manageable ⟨ndebug, none⟩ copy) →
      ∀ r, inflate ⟨ndebug, none⟩ memory strm (inflateInit statics heap) = .ok r →
        r.code ≠ .streamEnd := by
    intro hsome r hr hcode
    obtain ⟨report, hruns, hnot⟩ := hstuck hsome
    have hlive := (@Reachable.init ⟨ndebug, none⟩ statics heap).live (by simp [inflateInit])
    rw [inflate_headed rfl hnil hinput hpos, (runs_runLoop _ hlive).unique hruns] at hr
    cases report with
    | error fault => cases hr
    | ok e =>
      cases hr
      exact hnot e rfl ((codeAfter_eq_streamEnd e.signal).mp hcode)
  by_cases hall : ∀ copy ∈ zlibCopies (0x78 :: flg :: body), Manageable ⟨ndebug, none⟩ copy
  · obtain ⟨r, hr, hcode, hgood⟩ := hends hall
    refine ⟨⟨fun _ ↦ hall, fun _ ↦ ⟨r, hr, hcode⟩⟩, fun r' hr' _ ↦ ?_⟩
    obtain rfl := Except.ok.inj (hr.symm.trans hr')
    exact hgood
  · have hsome : ∃ copy ∈ zlibCopies (0x78 :: flg :: body), ¬ Manageable ⟨ndebug, none⟩ copy := by
      obtain ⟨copy, hnot⟩ := not_forall.mp hall
      exact ⟨copy, Classical.not_imp.mp hnot⟩
    refine ⟨⟨fun hr ↦ ?_, fun h ↦ absurd h hall⟩, fun r hr hcode ↦ absurd hcode (hfails hsome r hr)⟩
    obtain ⟨r, hr, hcode⟩ := hr
    exact absurd hcode (hfails hsome r hr)

/-- One call on a fresh inflater, with a well-formed stream of any size and room for its output, ends
the stream if and only if all copies of the stream are manageable; and where it does, it has decoded
it. -/
theorem inflate_decodes_iff {ndebug : Bool} {statics : Statics} (hstatics : SoundStatics statics)
    (heap : InfState) {memory : Memory} {strm : ZStream} {stream output : List UInt8}
    (hinput : memory.bytes strm.nextIn strm.availIn = stream) (hlength : strm.availIn < 2 ^ 32)
    (hdecode : decodeZlib stream = some output) (hpos : 0 < strm.availOut)
    (hout : output.length ≤ strm.availOut) :
    ((∃ r, inflate ⟨ndebug, none⟩ memory strm (inflateInit statics heap) = .ok r ∧
        r.code = .streamEnd) ↔ ∀ copy ∈ zlibCopies stream, Manageable ⟨ndebug, none⟩ copy) ∧
      ∀ r, inflate ⟨ndebug, none⟩ memory strm (inflateInit statics heap) = .ok r →
        r.code = .streamEnd → r.stored = output ∧ r.strm.nextIn = strm.nextIn + strm.availIn ∧
          r.strm.availIn = 0 := by
  obtain ⟨flg, body, rfl, hbody⟩ := decodeZlib_some hdecode
  obtain ⟨bits, trailer, hblocks, htrailer, -⟩ := decodeBody_some hbody
  exact inflate_closed_iff hstatics heap hinput hlength hblocks htrailer hpos hout

theorem inflate_decodes_iff_overlap : ∃ r,
    inflate ⟨false, none⟩ (memoryOf overlapStream) (streamOf 12 8) freshInflater = .ok r ∧
      r.code = .streamEnd := by
  have hinput : (memoryOf overlapStream).bytes (streamOf 12 8).nextIn (streamOf 12 8).availIn =
      overlapStream := by decide
  exact (inflate_decodes_iff soundStatics_none zeroHeap hinput (by decide) decodeZlib_overlapStream
    (by decide) (by decide)).1.mpr (by decide +kernel)

/-! ### Finished chunks -/

/-- What a call of `deflate` that finishes stores behind the output that was kept, whatever its
windows were and whatever was flushed before: a fresh inflater ends it in one call if and only if all its
copies are manageable, and has then stored the bytes that `deflate` was offered. -/
theorem inflate_finished_iff {build : Build} {start strm₀ : ZStream} {ustate : UzlibComp}
    {calls : List DeflateCall} {call : DeflateCall}
    (hrun : DeflateRun build start calls strm₀ ustate) (hcall : call ∈ calls)
    (hcode : call.result.code = .streamEnd) {ndebug : Bool} {statics : Statics}
    (hstatics : SoundStatics statics) (heap : InfState) {memory : Memory} {strm : ZStream}
    (hinput : memory.bytes strm.nextIn strm.availIn = call.result.stored.drop call.state.kept)
    (hlength : strm.availIn < 2 ^ 32) (hpos : 0 < strm.availOut)
    (hout : call.offered.length ≤ strm.availOut) :
    ((∃ r, inflate ⟨ndebug, none⟩ memory strm (inflateInit statics heap) = .ok r ∧
        r.code = .streamEnd) ↔ ∀ copy ∈ zlibCopies (call.result.stored.drop call.state.kept),
          Manageable ⟨ndebug, none⟩ copy) ∧
      ∀ r, inflate ⟨ndebug, none⟩ memory strm (inflateInit statics heap) = .ok r →
        r.code = .streamEnd → r.stored = call.offered ∧
          r.strm.nextIn = strm.nextIn + strm.availIn ∧ r.strm.availIn = 0 := by
  obtain ⟨earlier, later, rfl⟩ := List.append_of_mem hcall
  have hfront : earlier ++ [call] <+: earlier ++ call :: later := ⟨later, by simp⟩
  obtain ⟨first, hchunk⟩ := hrun.finished_chunk hfront hcode
  obtain ⟨body, hbytes, hbehind⟩ := decodeBlocks_chunk hchunk
  obtain ⟨bits, hblocks, htrailer⟩ := hbehind []
  rw [List.append_nil] at hblocks
  rw [hbytes] at hinput ⊢
  exact inflate_closed_iff hstatics heap hinput hlength (hblocks _) htrailer hpos hout

theorem inflate_finished_iff_letter : ∃ r,
    inflate ⟨false, none⟩ (memoryOf letterStream) (streamOf 9 1) freshInflater = .ok r ∧
      r.code = .streamEnd := by
  obtain ⟨r, hr, -, hstored⟩ := finish_letter
  have hcodes : (deflate ⟨false, none⟩ (fun _ ↦ 97) { letterStrm with availOut := 10 } letterState
      .finish).map (·.code) = .ok .streamEnd := by decide +kernel
  rw [hr] at hcodes
  have hcode : r.code = .streamEnd := Except.ok.inj hcodes
  have hhands : Hands (deflateInit letterStrm letterState).1 { letterStrm with availOut := 10 } :=
    ⟨rfl, rfl, rfl⟩
  have hrun : DeflateRun ⟨false, none⟩ letterStrm
      [⟨fun _ ↦ 97, { letterStrm with availOut := 10 }, letterState, .finish, r⟩] r.strm r.state :=
    .call (.init letterState) hhands hr
  have hkept : letterState.kept = 0 := by decide
  have hinput : (memoryOf letterStream).bytes (streamOf 9 1).nextIn (streamOf 9 1).availIn =
      r.stored.drop letterState.kept := by
    rw [hstored, hkept]
    decide
  have hcopies : zlibCopies (r.stored.drop letterState.kept) = [] := by
    rw [hstored, hkept]
    decide +kernel
  refine (inflate_finished_iff hrun List.mem_cons_self hcode soundStatics_none zeroHeap hinput
    (by decide) (by decide) le_rfl).1.mpr fun copy hcopy ↦ ?_
  rw [hcopies] at hcopy
  cases hcopy

end ZephyrThrift.Muzic
