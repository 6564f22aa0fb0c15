import ZephyrThrift.Muzic.RunLengths

/-!
# Decoding the header of a dynamic block

From the step that reads the counts, the four passes over a dynamic header follow the parser of the
reference decoder: where the parser gets the code lengths of both alphabets, they end in front of the
first symbol with decoders for these lengths (`header_done`), and where it finds the bits too short,
they wait for input (`header_short`).

The passes are those of any `step` that agrees with `inflateStep` on a header.
-/

set_option autoImplicit false
set_option relaxedAutoImplicit false

namespace ZephyrThrift.Muzic

open Foundation

/-- The steps of a dynamic header. -/
def InHeader (step : InfStep) : Prop :=
  step = .loadDynamicHuffmanDecoders ∨ step = .loadFrontDecoder ∨ step = .loadLiteralDecoder ∨
    step = .loadDistanceDecoder

/-- A step that agrees with `inflateStep` on a dynamic header. -/
def FollowsHeader (build : Build) (step : InfPass → Except Fault InfEffect) : Prop :=
  ∀ p, InHeader p.state.step → step p = inflateStep build p

/-- What reading a header leaves alone. -/
structure Untouched (p q : InfPass) : Prop where
  free : q.free = p.free
  isLastBlock : q.state.isLastBlock = p.state.isLastBlock
  outputBuf : q.state.outputBuf = p.state.outputBuf
  statics : q.state.statics = p.state.statics

theorem Untouched.refl (p : InfPass) : Untouched p p := ⟨rfl, rfl, rfl, rfl⟩

theorem Untouched.trans {p q r : InfPass} (h : Untouched p q) (h' : Untouched q r) :
    Untouched p r :=
  ⟨h'.free.trans h.free, h'.isLastBlock.trans h.isLastBlock, h'.outputBuf.trans h.outputBuf,
    h'.statics.trans h.statics⟩

/-- A decoder pointer to a table for the given code lengths. -/
structure Points (st : InfCore) (ref : Option DecoderRef) (lengths : List ℕ) : Prop where
  table : ∃ table, st.decoder ref = .ok table ∧ Decodes table lengths
  le : ∀ length ∈ lengths, length ≤ maxCodeLength

/-- The run from here waits for input. -/
def Waits (step : InfPass → Except Fault InfEffect) (p : InfPass) : Prop :=
  ∃ e, Runs step p (.ok e) ∧ e.signal = .needInput

theorem waits_of_step {step : InfPass → Except Fault InfEffect} {p : InfPass} {e : InfEffect}
    (h : step p = .ok e) (hneed : e.signal = .needInput) : Waits step p :=
  ⟨e, Runs.stop h (by rw [hneed]; simp), hneed⟩

theorem Waits.of_reaches {step : InfPass → Except Fault InfEffect} {p q : InfPass}
    {stored : List UInt8} (h : Reaches step p stored q) (hwaits : Waits step q) : Waits step p := by
  obtain ⟨e, hruns, hneed⟩ := hwaits
  exact ⟨e.after stored, h.runs hruns, hneed⟩

/-! ### The four passes -/

section Passes

variable (build : Build) {limit : ℕ} {p : InfPass} {bits : List Bool}

theorem passLoadDynamicHuffmanDecoders_spec (hlimit : 7 ≤ limit)
    (hfaces : (bitstreamOf p).Faces limit bits) :
    (∀ counts rest, parseBits 14 bits = .done counts rest →
      ∃ after, passLoadDynamicHuffmanDecoders p =
          .ok ⟨withState (withBitstream p after) fun st ↦
            { st with symcount := counts, step := .loadFrontDecoder }, [], .proceed⟩ ∧
        after.Faces limit rest) ∧
    (parseBits 14 bits = .short →
      ∃ e, passLoadDynamicHuffmanDecoders p = .ok e ∧ e.signal = .needInput) := by
  have hread := hfaces.answers_readBits hlimit (show 5 + 5 + 4 ≤ 25 by norm_num)
  rw [passLoadDynamicHuffmanDecoders]
  generalize (bitstreamOf p).readBits (5 + 5 + 4) = result at hread
  cases hparse : parseBits 14 bits with
  | malformed => exact ⟨fun _ _ h ↦ (by cases h), fun h ↦ (by cases h)⟩
  | short =>
    rw [show 5 + 5 + 4 = 14 from rfl, hparse] at hread
    cases hread with
    | short after => exact ⟨fun _ _ h ↦ (by cases h), fun _ ↦ ⟨_, rfl, rfl⟩⟩
  | done counts rest =>
    rw [show 5 + 5 + 4 = 14 from rfl, hparse] at hread
    cases hread with
    | @done _ _ after hafter =>
      refine ⟨fun counts' rest' h ↦ ?_, fun h ↦ by cases h⟩
      cases h
      exact ⟨after, rfl, hafter⟩

/-- Behind the code lengths of the code length alphabet. -/
structure FrontLoaded (limit : ℕ) (codeLengths : List ℕ) (counts : ℕ) (p : InfPass)
    (bits : List Bool) : Prop where
  step : p.state.step = .loadLiteralDecoder
  symcount : p.state.symcount = counts
  frontDecoder : p.state.frontDecoder = some .huffmanTableA
  decodes : Decodes p.state.huffmanTableA codeLengths
  fresh : p.state.sllist.Fresh
  faces : (bitstreamOf p).Faces limit bits

theorem passLoadFrontDecoder_spec (hlimit : 7 ≤ limit) (hfaces : (bitstreamOf p).Faces limit bits)
    (hfresh : p.state.sllist.Fresh) {count : ℕ}
    (hcount : count = p.state.symcount / 2 ^ 10 % 2 ^ 4 + 4) :
    (∀ sent rest, parseNumbers 3 count bits = .done sent rest → Usable (codeLengthLengths sent) →
      ∃ q, passLoadFrontDecoder build p = .ok ⟨q, [], .proceed⟩ ∧ Untouched p q ∧
        FrontLoaded limit (codeLengthLengths sent) p.state.symcount q rest) ∧
    (parseNumbers 3 count bits = .short →
      ∃ e, passLoadFrontDecoder build p = .ok e ∧ e.signal = .needInput) := by
  have hnumber : ((p.state.symcount >>> 10) &&& 0x0F) + 4 = count := by
    rw [hcount, show 0x0F = 2 ^ 4 - 1 by norm_num, Nat.and_two_pow_sub_one_eq_mod,
      Nat.shiftRight_eq_div_pow]
  obtain ⟨hdone, hshort⟩ := infSLListAdd3BitSymlens_spec build hlimit hfresh.represents
    hfresh.symbol hfaces (show count ≤ 19 by omega)
  rw [passLoadFrontDecoder, hnumber]
  constructor
  · intro sent rest hparse husable
    obtain ⟨list, after, hadd, hafter, hrep⟩ := hdone sent rest hparse
    have hlength : (codeLengthLengths sent).length ≤ infLastValidSymbol + 1 := by
      simp only [codeLengthLengths, List.length_map, List.length_range]
      decide
    obtain ⟨chain, elements, table, hsorted, hmake, hdecodes⟩ := sortAndMake_spec build
      p.state.huffmanTableA hrep husable.1 husable.2 hlength true
    refine ⟨withState (withBitstream p after) fun st ↦
      { st with
        sllist := list.restarted true elements
        huffmanTableA := table
        frontDecoder := some .huffmanTableA
        step := .loadLiteralDecoder }, ?_, ⟨rfl, rfl, rfl, rfl⟩,
      ⟨rfl, rfl, rfl, hdecodes, fresh_restarted _ _, hafter⟩⟩
    rw [hadd]
    simp only [listing, withState, withBitstream, bind, Except.bind, hsorted, hmake]
    rfl
  · intro hparse
    obtain ⟨list, after, hadd⟩ := hshort hparse
    rw [hadd]
    exact ⟨_, rfl, rfl⟩

/-- Behind the code lengths of the literal alphabet, the last of which may be a run that goes on. -/
structure LiteralLoaded (limit : ℕ) (codeLengths literal lengths : List ℕ) (counts : ℕ) (p : InfPass)
    (bits : List Bool) : Prop where
  step : p.state.step = .loadDistanceDecoder
  symcount : p.state.symcount = counts
  frontDecoder : p.state.frontDecoder = some .huffmanTableA
  decodes : Decodes p.state.huffmanTableA codeLengths
  literalDecoder : p.state.literalDecoder = some .huffmanTableB
  decodesLiteral : Decodes p.state.huffmanTableB literal
  filling : Filling p.state.sllist literal [] lengths
  faces : (bitstreamOf p).Faces limit bits

theorem passLoadLiteralDecoder_spec (hlimit : 7 ≤ limit) {codeLengths : List ℕ} {counts : ℕ}
    (h : FrontLoaded limit codeLengths counts p bits)
    (hmax : ∀ length ∈ codeLengths, length ≤ maxCodeLength) (hcodes : codeLengths.length ≤ 19)
    {literalCount : ℕ} (hliteral : literalCount = counts % 2 ^ 5 + 257) (count fuel : ℕ) :
    (∀ lengths rest, parseLengths codeLengths literalCount count fuel [] bits = .done lengths rest →
      Usable (lengths.take literalCount) →
        ∃ q, passLoadLiteralDecoder build p = .ok ⟨q, [], .proceed⟩ ∧ Untouched p q ∧
          LiteralLoaded limit codeLengths (lengths.take literalCount) lengths counts q rest ∧
          (lengths.take literalCount).length = literalCount) ∧
    (parseLengths codeLengths literalCount count fuel [] bits = .short →
      ∃ e, passLoadLiteralDecoder build p = .ok e ∧ e.signal = .needInput) := by
  have hnumber : (p.state.symcount &&& 0x1F) + 257 = literalCount := by
    rw [hliteral, h.symcount, show 0x1F = 2 ^ 5 - 1 by norm_num, Nat.and_two_pow_sub_one_eq_mod]
  have hdecoder : p.state.decoder p.state.frontDecoder = .ok p.state.huffmanTableA := by
    rw [h.frontDecoder]
    rfl
  obtain ⟨hdone, hshort⟩ := encodedSymlensLoop_spec build hlimit h.decodes hmax hcodes
    (show literalCount ≤ infLastValidSymbol + 1 by simp only [infLastValidSymbol]; omega)
    (literalCount + 2) p.state.sllist (bitstreamOf p) [] [] bits fuel h.fresh.filling h.faces
    (Nat.zero_le _) (turnsLeft_le literalCount p.state.sllist)
  rw [List.length_nil, Nat.zero_add] at hdone hshort
  simp only [passLoadLiteralDecoder, hdecoder, hnumber, bind, Except.bind]
  constructor
  · intro lengths rest hparse husable
    obtain ⟨list, after, added, hadd, hafter, hfilling, hlength⟩ := hdone lengths rest hparse
    have hadded : added = lengths.take literalCount := by
      rw [hfilling.added_eq (List.prefix_refl _), hlength, List.length_nil, List.drop_zero]
    obtain ⟨chain, elements, table, hsorted, hmake, hdecodes⟩ := sortAndMake_spec build
      p.state.huffmanTableB hfilling.represents (hadded ▸ husable.1) (hadded ▸ husable.2)
      (by simp only [infLastValidSymbol]; omega) false
    have hrest := hfilling.restarted elements
    rw [hadded] at hdecodes hrest
    refine ⟨withState (withBitstream p after) fun st ↦
      { st with
        sllist := list.restarted false elements
        huffmanTableB := table
        literalDecoder := some .huffmanTableB
        step := .loadDistanceDecoder }, ?_, ⟨rfl, rfl, rfl, rfl⟩,
      ⟨rfl, h.symcount, h.frontDecoder, h.decodes, rfl, hdecodes, hrest, hafter⟩, hadded ▸ hlength⟩
    rw [infSLListAddEncodedSymlens, hadd]
    simp only [listing, withState, withBitstream, hsorted, hmake]
    rfl
  · intro hparse
    obtain ⟨list, after, hadd⟩ := hshort hparse
    rw [infSLListAddEncodedSymlens, hadd]
    exact ⟨_, rfl, rfl⟩

/-- Behind the header, in front of the first symbol. -/
structure HeaderLoaded (limit : ℕ) (literal distance : List ℕ) (p : InfPass) (bits : List Bool) :
    Prop where
  step : p.state.step = .processCompressedBlock
  literalPoints : Points p.state p.state.literalDecoder literal
  distancePoints : Points p.state p.state.distanceDecoder distance
  fresh : p.state.sllist.Fresh
  faces : (bitstreamOf p).Faces limit bits

theorem passLoadDistanceDecoder_spec (hlimit : 7 ≤ limit) {codeLengths literal lengths : List ℕ}
    {counts : ℕ} (h : LiteralLoaded limit codeLengths literal lengths counts p bits)
    (hmax : ∀ length ∈ codeLengths, length ≤ maxCodeLength) (hcodes : codeLengths.length ≤ 19)
    (hliteral : ∀ length ∈ literal, length ≤ maxCodeLength) {distanceCount : ℕ}
    (hdistance : distanceCount = counts / 2 ^ 5 % 2 ^ 5 + 1) (fuel : ℕ) :
    (∀ total rest, parseLengths codeLengths (literal.length + distanceCount)
        (literal.length + distanceCount) fuel lengths bits = .done total rest →
      Usable (total.drop literal.length) →
        ∃ q, passLoadDistanceDecoder build p = .ok ⟨q, [], .proceed⟩ ∧ Untouched p q ∧
          HeaderLoaded limit literal (total.drop literal.length) q rest) ∧
    (parseLengths codeLengths (literal.length + distanceCount) (literal.length + distanceCount) fuel
        lengths bits = .short →
      ∃ e, passLoadDistanceDecoder build p = .ok e ∧ e.signal = .needInput) := by
  have hnumber : ((p.state.symcount >>> 5) &&& 0x1F) + 1 = distanceCount := by
    rw [hdistance, h.symcount, show 0x1F = 2 ^ 5 - 1 by norm_num, Nat.and_two_pow_sub_one_eq_mod,
      Nat.shiftRight_eq_div_pow]
  have hdecoder : p.state.decoder p.state.frontDecoder = .ok p.state.huffmanTableA := by
    rw [h.frontDecoder]
    rfl
  obtain ⟨hdone, hshort⟩ := encodedSymlensLoop_spec build hlimit h.decodes hmax hcodes
    (show distanceCount ≤ infLastValidSymbol + 1 by simp only [infLastValidSymbol]; omega)
    (distanceCount + 2) p.state.sllist (bitstreamOf p) [] lengths bits fuel h.filling h.faces
    (Nat.zero_le _) (turnsLeft_le distanceCount p.state.sllist)
  simp only [passLoadDistanceDecoder, hdecoder, hnumber, bind, Except.bind]
  constructor
  · intro total rest hparse husable
    obtain ⟨list, after, added, hadd, hafter, hfilling, hlength⟩ := hdone total rest hparse
    have htotal := (parseLengths_done fuel hparse).2.2
    have hadded : added = total.drop literal.length := by
      rw [hfilling.added_eq (List.prefix_refl _), hlength]
      exact List.take_of_length_le (by rw [List.length_drop]; omega)
    obtain ⟨chain, elements, table, hsorted, hmake, hdecodes⟩ := sortAndMake_spec build
      p.state.huffmanTableA hfilling.represents (hadded ▸ husable.1) (hadded ▸ husable.2)
      (by simp only [infLastValidSymbol]; omega) true
    rw [hadded] at hdecodes
    refine ⟨withState (withBitstream p after) fun st ↦
      { st with
        sllist := list.restarted true elements
        huffmanTableA := table
        distanceDecoder := some .huffmanTableA
        step := .processCompressedBlock }, ?_, ⟨rfl, rfl, rfl, rfl⟩,
      ⟨rfl, ⟨⟨p.state.huffmanTableB, ?_, h.decodesLiteral⟩, hliteral⟩,
        ⟨⟨table, rfl, hdecodes⟩, husable.1.1⟩, fresh_restarted _ _, hafter⟩⟩
    · rw [infSLListAddEncodedSymlens, hadd]
      simp only [listing, withState, withBitstream, hsorted, hmake]
      rfl
    · simp only [withState, withBitstream, h.literalDecoder]
      rfl
  · intro hparse
    obtain ⟨list, after, hadd⟩ := hshort hparse
    rw [infSLListAddEncodedSymlens, hadd]
    exact ⟨_, rfl, rfl⟩

end Passes

/-! ### The header -/

section Header

variable {build : Build} {step : InfPass → Except Fault InfEffect} {limit : ℕ} {p : InfPass}
  {bits : List Bool}

/-- A pass over a part of the header that proceeds. -/
theorem FollowsHeader.reaches (h : FollowsHeader build step) (hheader : InHeader p.state.step)
    {q : InfPass} (hpass : inflateStep build p = .ok ⟨q, [], .proceed⟩) : Reaches step p [] q :=
  Reaches.single ((h p hheader).trans hpass) rfl

/-- A pass over a part of the header that waits. -/
theorem FollowsHeader.waits (h : FollowsHeader build step) (hheader : InHeader p.state.step)
    (hpass : ∃ e, inflateStep build p = .ok e ∧ e.signal = .needInput) : Waits step p := by
  obtain ⟨e, he, hneed⟩ := hpass
  exact waits_of_step ((h p hheader).trans he) hneed

/-- The last two passes follow the parser of the two alphabets. -/
theorem alphabets_spec (hfollows : FollowsHeader build step) (hlimit : 7 ≤ limit)
    {codeLengths : List ℕ} {counts : ℕ} (h : FrontLoaded limit codeLengths counts p bits)
    (husable : Usable codeLengths) (hcodes : codeLengths.length ≤ 19) {literalCount : ℕ}
    (hliteral : literalCount = counts % 2 ^ 5 + 257) {distanceCount : ℕ}
    (hdistance : distanceCount = counts / 2 ^ 5 % 2 ^ 5 + 1) :
    (∀ literal distance rest,
      parseAlphabets codeLengths literalCount distanceCount bits = .done (literal, distance) rest →
        ∃ q, Reaches step p [] q ∧ Untouched p q ∧ HeaderLoaded limit literal distance q rest) ∧
    (parseAlphabets codeLengths literalCount distanceCount bits = .short → Waits step p) := by
  have hheader : InHeader p.state.step := .inr (.inr (.inl h.step))
  have hpass : inflateStep build p = passLoadLiteralDecoder build p := by
    simp only [inflateStep, h.step]
  obtain ⟨hdone, hshort⟩ := passLoadLiteralDecoder_spec build hlimit h husable.1.1 hcodes hliteral
    (literalCount + distanceCount) (literalCount + 1)
  simp only [parseAlphabets, if_pos husable]
  cases hparse : parseLengths codeLengths literalCount (literalCount + distanceCount)
      (literalCount + 1) [] bits with
  | malformed => exact ⟨fun _ _ _ h ↦ (by cases h), fun h ↦ (by cases h)⟩
  | short =>
    refine ⟨fun _ _ _ h ↦ (by cases h), fun _ ↦ hfollows.waits hheader ?_⟩
    rw [hpass]
    exact hshort hparse
  | done lengths middle =>
    simp only [Parse.done_bind]
    by_cases hfirst : Usable (lengths.take literalCount)
    · obtain ⟨q, hq, huntouched, hloaded, hlength⟩ := hdone lengths middle hparse hfirst
      have hreach := hfollows.reaches hheader (hpass.trans hq)
      have hheader' : InHeader q.state.step := .inr (.inr (.inr hloaded.step))
      have hpass' : inflateStep build q = passLoadDistanceDecoder build q := by
        simp only [inflateStep, hloaded.step]
      obtain ⟨hdone', hshort'⟩ := passLoadDistanceDecoder_spec build hlimit hloaded husable.1.1
        hcodes hfirst.1.1 hdistance (literalCount + distanceCount + 1)
      rw [hlength] at hdone' hshort'
      rw [if_pos hfirst]
      cases hparse' : parseLengths codeLengths (literalCount + distanceCount)
          (literalCount + distanceCount) (literalCount + distanceCount + 1) lengths middle with
      | malformed => exact ⟨fun _ _ _ h ↦ (by cases h), fun h ↦ (by cases h)⟩
      | short =>
        refine ⟨fun _ _ _ h ↦ (by cases h), fun _ ↦ Waits.of_reaches hreach ?_⟩
        refine hfollows.waits hheader' ?_
        rw [hpass']
        exact hshort' hparse'
      | done total last =>
        simp only [Parse.done_bind]
        by_cases hsecond : Usable (total.drop literalCount)
        · obtain ⟨r, hr, huntouched', hloaded'⟩ := hdone' total last hparse' hsecond
          rw [if_pos hsecond]
          refine ⟨fun literal distance rest hresult ↦ ?_, fun h ↦ by cases h⟩
          cases hresult
          -- the second pass only adds to the lengths of the first
          have hsame : total.take literalCount = lengths.take literalCount := by
            obtain ⟨more, hmore⟩ := (parseLengths_done _ hparse').1
            have hlong := (parseLengths_done _ hparse).2.1
            rw [← hmore, List.take_append_of_le_length hlong]
          rw [hsame]
          exact ⟨r, hreach.trans (hfollows.reaches hheader' (hpass'.trans hr)),
            huntouched.trans huntouched', hloaded'⟩
        · rw [if_neg hsecond]
          exact ⟨fun _ _ _ h ↦ (by cases h), fun h ↦ (by cases h)⟩
    · rw [if_neg hfirst]
      exact ⟨fun _ _ _ h ↦ (by cases h), fun h ↦ (by cases h)⟩

/-- The passes over a dynamic header follow its parser. -/
theorem header_spec (hfollows : FollowsHeader build step) (hlimit : 7 ≤ limit)
    (hstep : p.state.step = .loadDynamicHuffmanDecoders) (hfresh : p.state.sllist.Fresh)
    (hfaces : (bitstreamOf p).Faces limit bits) :
    (∀ literal distance rest, parseDynamicCodes bits = .done (literal, distance) rest →
      ∃ q, Reaches step p [] q ∧ Untouched p q ∧ HeaderLoaded limit literal distance q rest) ∧
    (parseDynamicCodes bits = .short → Waits step p) := by
  have hpass : inflateStep build p = passLoadDynamicHuffmanDecoders p := by
    simp only [inflateStep, hstep]
  obtain ⟨hdone, hshort⟩ := passLoadDynamicHuffmanDecoders_spec hlimit hfaces
  rw [parseDynamicCodes_eq]
  cases hparse : parseBits 14 bits with
  | malformed => exact ⟨fun _ _ _ h ↦ (by cases h), fun h ↦ (by cases h)⟩
  | short =>
    refine ⟨fun _ _ _ h ↦ (by cases h), fun _ ↦ hfollows.waits (.inl hstep) ?_⟩
    rw [hpass]
    exact hshort hparse
  | done counts middle =>
    obtain ⟨after, hq, hafter⟩ := hdone counts middle hparse
    have hreach := hfollows.reaches (.inl hstep) (hpass.trans hq)
    simp only [Parse.done_bind]
    generalize hqdef : (withState (withBitstream p after) fun st ↦
      { st with symcount := counts, step := .loadFrontDecoder } : InfPass) = q at hreach
    have huntouched : Untouched p q := by subst hqdef; exact ⟨rfl, rfl, rfl, rfl⟩
    have hstep' : q.state.step = .loadFrontDecoder := by subst hqdef; rfl
    have hcounts : q.state.symcount = counts := by subst hqdef; rfl
    have hfresh' : q.state.sllist.Fresh := by subst hqdef; exact hfresh
    have hfaces' : (bitstreamOf q).Faces limit middle := by subst hqdef; exact hafter
    have hheader' : InHeader q.state.step := .inr (.inl hstep')
    have hpass' : inflateStep build q = passLoadFrontDecoder build q := by
      simp only [inflateStep, hstep']
    obtain ⟨hdone', hshort'⟩ := passLoadFrontDecoder_spec build hlimit hfaces' hfresh'
      (show counts / 2 ^ 10 % 2 ^ 4 + 4 = q.state.symcount / 2 ^ 10 % 2 ^ 4 + 4 by rw [hcounts])
    cases hparse' : parseNumbers 3 (counts / 2 ^ 10 % 2 ^ 4 + 4) middle with
    | malformed => exact ⟨fun _ _ _ h ↦ (by cases h), fun h ↦ (by cases h)⟩
    | short =>
      refine ⟨fun _ _ _ h ↦ (by cases h), fun _ ↦ Waits.of_reaches hreach ?_⟩
      refine hfollows.waits hheader' ?_
      rw [hpass']
      exact hshort' hparse'
    | done sent last =>
      simp only [Parse.done_bind]
      by_cases husable : Usable (codeLengthLengths sent)
      · obtain ⟨r, hr, huntouched', hloaded⟩ := hdone' sent last hparse' husable
        have hreach' := hreach.trans (hfollows.reaches hheader' (hpass'.trans hr))
        rw [hcounts] at hloaded
        obtain ⟨hend, hwait⟩ := alphabets_spec hfollows hlimit hloaded husable
          (by simp [codeLengthLengths]) rfl rfl
        refine ⟨fun literal distance rest hresult ↦ ?_, fun h ↦ Waits.of_reaches hreach' (hwait h)⟩
        obtain ⟨t, ht, huntouched'', hheader⟩ := hend literal distance rest hresult
        exact ⟨t, hreach'.trans ht, (huntouched.trans huntouched').trans huntouched'', hheader⟩
      · simp only [parseAlphabets, if_neg husable]
        exact ⟨fun _ _ _ h ↦ (by cases h), fun h ↦ (by cases h)⟩

end Header

end ZephyrThrift.Muzic
