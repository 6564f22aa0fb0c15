import ZephyrThrift.Muzic.SharedLists
import ZephyrThrift.Muzic.Assertions

/-!
# Decoders that share their static tables

The two tables of the fixed codes are static variables: the first inflater that meets a block with fixed
codes makes them, in its own list, and all inflaters of the program use them from then on. So a call on
one stream changes what a call on another one finds. It does not show: an inflater that finds the tables
returns and stores what it would if it had made them itself (`inflate_shares`), and in every order of calls
on any number of streams, each stream gets the results that it gets alone (`interleaved_alone`).
-/

set_option autoImplicit false
set_option relaxedAutoImplicit false

namespace ZephyrThrift.Muzic

open Foundation

/-! ### The tables of the fixed codes -/

/-- The static variables are unset, or hold what their functions make. -/
structure OwnStatics (build : Build) (statics : Statics) : Prop where
  literal : ∀ table, statics.cachedLiteral = some table →
    ∃ list, infHuffMakeFixedLiteralDecoder build none zeroHeap.core.sllist = .ok (table, list)
  distance : ∀ table, statics.cachedDistance = some table →
    ∃ list, infHuffMakeFixedDistanceDecoder build none zeroHeap.core.sllist = .ok (table, list)

theorem ownStatics_none (build : Build) : OwnStatics build ⟨none, none⟩ where
  literal table htable := by cases htable
  distance table htable := by cases htable

section Fixed

variable {build : Build} {list list' : InfSLList}

theorem fresh_zeroHeap : zeroHeap.core.sllist.Fresh :=
  ⟨represents_nil rfl (fun _ ↦ rfl) fun _ ↦ rfl, rfl, rfl, rfl, rfl⟩

/-- Fresh lists differ in what was left in them. -/
theorem InfSLList.Fresh.sameList {lengths : Prop} (h : list.Fresh) (h' : list'.Fresh)
    (hlengths : lengths → list'.lengthsBySymbol = list.lengthsBySymbol) :
    SameList lengths list list' := by
  refine sameList_of_empty ?_ hlengths h.represents
  have hhead : list'.headPtr = list.headPtr := funext fun length ↦ by
    rw [h.represents.head, h'.represents.head]
  have htail : list'.tailPtr = list.tailPtr := funext fun length ↦ by
    rw [h.represents.tail, h'.represents.tail]
  have hindex : list'.elementIndex = list.elementIndex := by
    rw [h.represents.index, h'.represents.index]
  have hcommand := h'.command.trans h.command.symm
  have hsymbol := h'.symbol.trans h.symbol.symm
  have hlength := h'.huffmanLength.trans h.huffmanLength.symm
  have hrepetitions := h'.repetitions.trans h.repetitions.symm
  cases list'
  simp only at hhead htail hindex hcommand hsymbol hlength hrepetitions
  simp only [hhead, htail, hindex, hcommand, hsymbol, hlength, hrepetitions]

theorem infSLListAddSymlen_lengths {symbol huffmanLength : ℕ}
    (h : infSLListAddSymlen build list symbol huffmanLength = .ok list') :
    list'.lengthsBySymbol = list.lengthsBySymbol := by
  simp only [infSLListAddSymlen, bind, Except.bind] at h
  split at h
  · cases h
  split at h
  · cases h
  split at h
  · cases h; rfl
  split at h
  · cases h
  split at h
  · cases h
  · cases h; rfl

theorem infSLListAddRange_lengths (huffmanLength count : ℕ) :
    ∀ (firstSymbol : ℕ) (list : InfSLList),
      infSLListAddRange build firstSymbol huffmanLength count list = .ok list' →
        list'.lengthsBySymbol = list.lengthsBySymbol := by
  induction count with
  | zero => intro firstSymbol list h; cases h; rfl
  | succ count ih =>
    intro firstSymbol list h
    rw [infSLListAddRange] at h
    split at h
    · cases h
    · next hadd => exact (ih _ _ h).trans (infSLListAddSymlen_lengths hadd)

theorem infSLListGetSorted_lengths {resetRepetitions : Bool} {chain : List InfSymlen}
    (h : infSLListGetSorted list resetRepetitions = .ok (chain, list')) :
    list'.lengthsBySymbol = list.lengthsBySymbol := by
  rw [infSLListGetSorted] at h
  split at h
  · cases h
  · split at h
    · cases h
    · cases h; rfl

/-- From fresh lists, the same tables are made. -/
theorem makeFixedLiteral_matched (h : SameList False list list') :
    Matched (fun made made' ↦ made'.1 = made.1)
      (infHuffMakeFixedLiteralDecoder build none list)
      (infHuffMakeFixedLiteralDecoder build none list') := by
  rw [infHuffMakeFixedLiteralDecoder, infHuffMakeFixedLiteralDecoder]
  refine (h.infSLListAddRange 8 144 0).bind fun _ _ h ↦ (h.infSLListAddRange 9 112 144).bind
    fun _ _ h ↦ (h.infSLListAddRange 7 24 256).bind fun _ _ h ↦
    (h.infSLListAddRange 8 8 280).bind fun _ _ h ↦ (h.infSLListGetSorted true).bind ?_
  rintro ⟨chain, after⟩ ⟨chain', after'⟩ ⟨rfl, -, -⟩
  exact (Matched.refl (R := fun table table' ↦ table' = table) _ fun _ _ ↦ rfl).bind
    fun _ _ hsame ↦ .ok hsame

theorem makeFixedDistance_matched (h : SameList False list list') :
    Matched (fun made made' ↦ made'.1 = made.1)
      (infHuffMakeFixedDistanceDecoder build none list)
      (infHuffMakeFixedDistanceDecoder build none list') := by
  rw [infHuffMakeFixedDistanceDecoder, infHuffMakeFixedDistanceDecoder]
  refine (h.infSLListAddRange 5 32 0).bind fun _ _ h ↦ (h.infSLListGetSorted true).bind ?_
  rintro ⟨chain, after⟩ ⟨chain', after'⟩ ⟨rfl, -, -⟩
  exact (Matched.refl (R := fun table table' ↦ table' = table) _ fun _ _ ↦ rfl).bind
    fun _ _ hsame ↦ .ok hsame

/-- A function that makes a table, or hands out the one that it made before: the list is fresh again. -/
structure MakesOwn (make : Option HuffTable → InfSLList → Except Fault (HuffTable × InfSLList))
    (cached : Option HuffTable) (list : InfSLList) (table : HuffTable) (after : InfSLList) : Prop where
  made : make cached list = .ok (table, after)
  fresh : after.Fresh
  lengthsBySymbol : after.lengthsBySymbol = list.lengthsBySymbol
  own : ∃ list, make none zeroHeap.core.sllist = .ok (table, list)

theorem makesOwn_literal {statics : Statics} (hown : OwnStatics build statics) (h : list.Fresh) :
    ∃ table after, MakesOwn (infHuffMakeFixedLiteralDecoder build) statics.cachedLiteral list table
      after := by
  cases hcached : statics.cachedLiteral with
  | some table => exact ⟨table, list, rfl, h, rfl, hown.literal table hcached⟩
  | none =>
    obtain ⟨table, after, hmade, -, hfresh⟩ := infHuffMakeFixedLiteralDecoder_spec build
      (show CachedFor none fixedLiteralLengths from fun table hnone ↦ by cases hnone) h
    refine ⟨table, after, hmade, hfresh, ?_, ?_⟩
    · obtain ⟨first, hfirst, hrest⟩ := bind_ok hmade
      obtain ⟨second, hsecond, hrest⟩ := bind_ok hrest
      obtain ⟨third, hthird, hrest⟩ := bind_ok hrest
      obtain ⟨fourth, hfourth, hrest⟩ := bind_ok hrest
      obtain ⟨⟨chain, sorted⟩, hsorted, hrest⟩ := bind_ok hrest
      obtain ⟨_, -, hrest⟩ := bind_ok hrest
      cases hrest
      rw [infSLListGetSorted_lengths hsorted, infSLListAddRange_lengths _ _ _ _ hfourth,
        infSLListAddRange_lengths _ _ _ _ hthird, infSLListAddRange_lengths _ _ _ _ hsecond,
        infSLListAddRange_lengths _ _ _ _ hfirst]
    · obtain ⟨⟨table', list'⟩, hmade', hsame⟩ := (makeFixedLiteral_matched
        (h.sameList fresh_zeroHeap False.elim)).of_ok hmade
      cases hsame
      exact ⟨list', hmade'⟩

theorem makesOwn_distance {statics : Statics} (hown : OwnStatics build statics) (h : list.Fresh) :
    ∃ table after, MakesOwn (infHuffMakeFixedDistanceDecoder build) statics.cachedDistance list table
      after := by
  cases hcached : statics.cachedDistance with
  | some table => exact ⟨table, list, rfl, h, rfl, hown.distance table hcached⟩
  | none =>
    obtain ⟨table, after, hmade, -, hfresh⟩ := infHuffMakeFixedDistanceDecoder_spec build
      (show CachedFor none fixedDistanceLengths from fun table hnone ↦ by cases hnone) h
    refine ⟨table, after, hmade, hfresh, ?_, ?_⟩
    · obtain ⟨first, hfirst, hrest⟩ := bind_ok hmade
      obtain ⟨⟨chain, sorted⟩, hsorted, hrest⟩ := bind_ok hrest
      obtain ⟨_, -, hrest⟩ := bind_ok hrest
      cases hrest
      rw [infSLListGetSorted_lengths hsorted, infSLListAddRange_lengths _ _ _ _ hfirst]
    · obtain ⟨⟨table', list'⟩, hmade', hsame⟩ := (makeFixedDistance_matched
        (h.sameList fresh_zeroHeap False.elim)).of_ok hmade
      cases hsame
      exact ⟨list', hmade'⟩

end Fixed

/-! ### What the pointers point to -/

/-- The statics hold what their functions make, and the pointers to decoders are set where they are
followed: to the tables of the state, or to statics that have been set. -/
structure Tidy (build : Build) (st : InfCore) : Prop where
  orderly : Orderly st
  statics : OwnStatics build st.statics
  front : st.step = .loadLiteralDecoder ∨ st.step = .loadDistanceDecoder →
    st.frontDecoder = some .huffmanTableA
  literal : st.step = .loadDistanceDecoder → st.literalDecoder = some .huffmanTableB
  codes : InCodes st.step →
    st.literalDecoder = some .huffmanTableB ∧ st.distanceDecoder = some .huffmanTableA ∨
      (st.literalDecoder = some .fixedLiteral ∧ st.distanceDecoder = some .fixedDistance) ∧
        st.statics.cachedLiteral ≠ none ∧ st.statics.cachedDistance ≠ none

section Passes

variable {build : Build} {p : InfPass} {e : InfEffect}

theorem tidy_init (build : Build) {statics : Statics} (h : OwnStatics build statics)
    (heap : InfState) : Tidy build (inflateInit statics heap).core where
  orderly := (@Reachable.init build statics heap).orderly
  statics := h
  front hstep := by rcases hstep with hstep | hstep <;> cases hstep
  literal hstep := by cases hstep
  codes hstep := by simp [InCodes, inflateInit] at hstep

/-- A pass stays at its step, or goes on to one of those behind it. -/
theorem step_of_inflateStep (hp : inflateStep build p = .ok e) :
    (e.pass.state.step = p.state.step ∨ e.pass.state.step = .fatalError) ∨
      e.pass.state.step ∈ nextSteps p.state.step := by
  have hturn := turn_inflateStep hp
  by_cases hproceed : e.signal = .proceed
  · rw [hproceed] at hturn
    exact .inr hturn.nextStep
  · exact .inl (hturn.stays hproceed)

/-- The passes that do not load decoders leave them alone. -/
theorem decodersOf_of_step (hfills : ¬ FillsList p.state.step)
    (hfixed : p.state.step ≠ .loadFixedHuffmanDecoders) (hp : inflateStep build p = .ok e) :
    decodersOf e.pass.state = decodersOf p.state :=
  ((@BufferMoves.law (fun _ _ ↦ True) ⟨fun _ _ ↦ trivial, fun _ _ ↦ trivial, trivial⟩ build).step
    trivial hp).2 hfills hfixed

theorem Tidy.of_same (h : Tidy build p.state) (hfills : ¬ FillsList p.state.step)
    (hfixed : p.state.step ≠ .loadFixedHuffmanDecoders) (hp : inflateStep build p = .ok e) :
    Tidy build e.pass.state := by
  have hsame := decodersOf_of_step hfills hfixed hp
  have hliteral := congrArg Decoders.literalDecoder hsame
  have hdistance := congrArg Decoders.distanceDecoder hsame
  have hstatics := congrArg Decoders.statics hsame
  simp only [decodersOf] at hliteral hdistance hstatics
  have hprevious : ∀ next, e.pass.state.step = next → (FillsList next ∨ InCodes next) →
      (next = p.state.step ∨ next ∈ nextSteps p.state.step) := by
    rintro next rfl hnext
    rcases step_of_inflateStep hp with (hstep | hstep) | hstep
    · exact .inl hstep
    · rw [hstep] at hnext
      simp [FillsList, InCodes] at hnext
    · exact .inr hstep
  have hnot : ∀ next, e.pass.state.step = next → FillsList next → next = .loadFrontDecoder := by
    intro next hnext hmem
    rcases hprevious next hnext (.inl hmem) with rfl | hstep
    · exact absurd hmem hfills
    · obtain ⟨-, -, hliteral, hdistance, -⟩ := previousStep hstep
      rcases hmem with rfl | rfl | rfl
      · rfl
      · exact absurd (.inl (hliteral rfl)) hfills
      · exact absurd (.inr (.inl (hdistance rfl))) hfills
  refine ⟨orderly_inflateStep h.orderly hp, by rw [hstatics]; exact h.statics, fun hstep ↦ ?_,
    fun hstep ↦ ?_, fun hcodes ↦ ?_⟩
  · rcases hstep with hstep | hstep
    · cases hnot _ hstep (.inr (.inl rfl))
    · cases hnot _ hstep (.inr (.inr rfl))
  · cases hnot _ hstep (.inr (.inr rfl))
  · rw [hliteral, hdistance, hstatics]
    refine h.codes ?_
    rcases hprevious _ rfl (.inr hcodes) with hstep | hstep
    · rwa [← hstep]
    · rcases (previousStep hstep).2.2.2.2 hcodes with hcodes | hstep | hstep
      · exact hcodes
      · exact absurd hstep hfixed
      · exact absurd (.inr (.inr hstep)) hfills

/-- A pass leaves the pointers tidy. -/
theorem Tidy.step (h : Tidy build p.state) (hp : inflateStep build p = .ok e) :
    Tidy build e.pass.state := by
  have horderly := orderly_inflateStep h.orderly hp
  by_cases hfixed : p.state.step = .loadFixedHuffmanDecoders
  · have hfresh := h.orderly.fresh (by simp [FillsList, hfixed])
    obtain ⟨literal, list₁, hliteral⟩ := makesOwn_literal h.statics hfresh
    obtain ⟨distance, list₂, hdistance⟩ := makesOwn_distance h.statics hliteral.fresh
    rw [inflateStep_eq] at hp
    simp only [hfixed, passOf, passLoadFixedHuffmanDecoders, hliteral.made, hdistance.made, bind,
      Except.bind] at hp
    cases hp
    refine ⟨horderly, ⟨fun table htable ↦ ?_, fun table htable ↦ ?_⟩, fun hstep ↦ ?_, fun hstep ↦ ?_,
      fun _ ↦ .inr ⟨⟨rfl, rfl⟩, by simp [withState], by simp [withState]⟩⟩
    · cases htable
      exact hliteral.own
    · cases htable
      exact hdistance.own
    · rcases hstep with hstep | hstep <;> cases hstep
    · cases hstep
  by_cases hfills : FillsList p.state.step
  · rw [inflateStep_eq] at hp
    rcases hfills with hstep | hstep | hstep <;> simp only [hstep, passOf] at hp
    · rcases listing_ok hp with ⟨list, after, -, rfl⟩ | ⟨list, after, -, hnext⟩
      · exact ⟨horderly, h.statics, h.front, h.literal, h.codes⟩
      · obtain ⟨_, -, hnext⟩ := bind_ok hnext
        obtain ⟨_, -, hnext⟩ := bind_ok hnext
        cases hnext
        refine ⟨horderly, h.statics, fun _ ↦ rfl, fun hstep ↦ ?_, fun hcodes ↦ ?_⟩
        · cases hstep
        · simp [InCodes, withState] at hcodes
    · obtain ⟨_, -, hp⟩ := bind_ok hp
      rcases listing_ok hp with ⟨list, after, -, rfl⟩ | ⟨list, after, -, hnext⟩
      · exact ⟨horderly, h.statics, h.front, h.literal, h.codes⟩
      · obtain ⟨_, -, hnext⟩ := bind_ok hnext
        obtain ⟨_, -, hnext⟩ := bind_ok hnext
        cases hnext
        refine ⟨horderly, h.statics, fun _ ↦ h.front (.inl hstep), fun _ ↦ rfl, fun hcodes ↦ ?_⟩
        simp [InCodes, withState] at hcodes
    · obtain ⟨_, -, hp⟩ := bind_ok hp
      rcases listing_ok hp with ⟨list, after, -, rfl⟩ | ⟨list, after, -, hnext⟩
      · exact ⟨horderly, h.statics, h.front, h.literal, h.codes⟩
      · obtain ⟨_, -, hnext⟩ := bind_ok hnext
        obtain ⟨_, -, hnext⟩ := bind_ok hnext
        cases hnext
        refine ⟨horderly, h.statics, fun hstep ↦ ?_, fun hstep ↦ ?_,
          fun _ ↦ .inl ⟨h.literal hstep, rfl⟩⟩
        · rcases hstep with hstep | hstep <;> cases hstep
        · cases hstep
  · exact h.of_same hfills hfixed hp

/-! ### Passes in lockstep -/

/-- The same pass with another list and other statics. -/
def sharing (list : InfSLList) (statics : Statics) (p : InfPass) : InfPass :=
  withState p fun st ↦ { st with sllist := list, statics := statics }

/-- The same effect with another list and other statics. -/
def sharingAfter (list : InfSLList) (statics : Statics) (e : InfEffect) : InfEffect :=
  { e with pass := sharing list statics e.pass }

/-- Decoders that differ in what was left in their lists, and in their statics. -/
structure Mirrors (st st' : InfCore) : Prop where
  same : st' = { st with sllist := st'.sllist, statics := st'.statics }
  list : SameList True st.sllist st'.sllist

/-- Such decoders of one program: their statics differ in which of them are set. -/
structure Shares (build : Build) (st st' : InfCore) : Prop extends Mirrors st st' where
  tidy : Tidy build st
  tidy' : Tidy build st'

/-- The statics that are set in both are the same. -/
theorem Shares.statics_eq {st st' : InfCore} (h : Shares build st st') :
    (st.statics.cachedLiteral ≠ none → st'.statics.cachedLiteral ≠ none →
      st'.statics.cachedLiteral = st.statics.cachedLiteral) ∧
    (st.statics.cachedDistance ≠ none → st'.statics.cachedDistance ≠ none →
      st'.statics.cachedDistance = st.statics.cachedDistance) := by
  refine ⟨fun hset hset' ↦ ?_, fun hset hset' ↦ ?_⟩
  · obtain ⟨table, htable⟩ := Option.ne_none_iff_exists'.mp hset
    obtain ⟨table', htable'⟩ := Option.ne_none_iff_exists'.mp hset'
    obtain ⟨_, hmade⟩ := h.tidy.statics.literal table htable
    obtain ⟨_, hmade'⟩ := h.tidy'.statics.literal table' htable'
    cases hmade.symm.trans hmade'
    rw [htable, htable']
  · obtain ⟨table, htable⟩ := Option.ne_none_iff_exists'.mp hset
    obtain ⟨table', htable'⟩ := Option.ne_none_iff_exists'.mp hset'
    obtain ⟨_, hmade⟩ := h.tidy.statics.distance table htable
    obtain ⟨_, hmade'⟩ := h.tidy'.statics.distance table' htable'
    cases hmade.symm.trans hmade'
    rw [htable, htable']

/-- Behind a header, both decoders read with the same tables. -/
theorem Shares.decoder_eq {st st' : InfCore} (h : Shares build st st') (hcodes : InCodes st.step) :
    st'.decoder st'.literalDecoder = st.decoder st.literalDecoder ∧
      st'.decoder st'.distanceDecoder = st.decoder st.distanceDecoder := by
  have hstep : st'.step = st.step := by rw [h.same]
  have hliteral : st'.literalDecoder = st.literalDecoder := by rw [h.same]
  have hdistance : st'.distanceDecoder = st.distanceDecoder := by rw [h.same]
  have hA : st'.huffmanTableA = st.huffmanTableA := by rw [h.same]
  have hB : st'.huffmanTableB = st.huffmanTableB := by rw [h.same]
  have hcodes' := h.tidy'.codes (by rwa [hstep])
  rw [hliteral, hdistance] at hcodes' ⊢
  rcases h.tidy.codes hcodes with ⟨hfirst, hsecond⟩ | ⟨⟨hfirst, hsecond⟩, hset, hset₂⟩
  · rw [hfirst, hsecond]
    exact ⟨congrArg Except.ok hB, congrArg Except.ok hA⟩
  · rw [hfirst, hsecond] at hcodes' ⊢
    rcases hcodes' with ⟨hfirst', -⟩ | ⟨-, hset', hset₂'⟩
    · cases hfirst'
    · simp only [InfCore.decoder, h.statics_eq.1 hset hset', h.statics_eq.2 hset₂ hset₂', and_self]

section Frame

variable (list : InfSLList) (statics : Statics)

theorem reading_sharing {α : Type} (p : InfPass) (read : Except Fault (Option α × InfBS))
    {next : α → InfPass → Except Fault InfEffect}
    (hnext : ∀ value q, next value (sharing list statics q) =
      (next value q).map (sharingAfter list statics)) :
    reading (sharing list statics p) read next =
      (reading p read next).map (sharingAfter list statics) := by
  rcases read with fault | ⟨_ | value, after⟩
  · rfl
  · rfl
  · exact hnext value (withBitstream p after)

/-- The passes that do not load decoders do the same with another list and other statics. -/
theorem inflateStep_sharing (hfills : ¬ FillsList p.state.step)
    (hfixed : p.state.step ≠ .loadFixedHuffmanDecoders)
    (hliteral : InCodes p.state.step → (sharing list statics p).state.decoder p.state.literalDecoder =
      p.state.decoder p.state.literalDecoder)
    (hdistance : InCodes p.state.step →
      (sharing list statics p).state.decoder p.state.distanceDecoder =
        p.state.decoder p.state.distanceDecoder) :
    inflateStep build (sharing list statics p) =
      (inflateStep build p).map (sharingAfter list statics) := by
  rw [inflateStep_eq, inflateStep_eq, show (sharing list statics p).state.step = p.state.step from rfl]
  have hsymbol : InCodes p.state.step → passReadLiteralOrLength (sharing list statics p) =
      (passReadLiteralOrLength p).map (sharingAfter list statics) := by
    intro hcodes
    rw [passReadLiteralOrLength, passReadLiteralOrLength,
      show (sharing list statics p).state.literalDecoder = p.state.literalDecoder from rfl,
      hliteral hcodes]
    rcases p.state.decoder p.state.literalDecoder with fault | decoder
    · rfl
    · simp only [bind, Except.bind]
      exact reading_sharing list statics p _ fun literal q ↦ rfl
  cases hstep : p.state.step <;> simp only [passOf]
  case start | fatalError | «end» => rfl
  case processNextBlock =>
    unfold passProcessNextBlock
    simp only [apply_ite (Except.map (sharingAfter list statics))]
    rfl
  case readBlockHeader =>
    refine reading_sharing list statics p _ fun temp q ↦ ?_
    simp only
    split <;> rfl
  case processUncompressedBlock =>
    refine reading_sharing list statics p _ fun temp q ↦ ?_
    simp only [apply_ite (Except.map (sharingAfter list statics))]
    rfl
  case outputUncompressedBlock =>
    unfold passOutputUncompressedBlock
    rw [show bitstreamOf (sharing list statics p) = bitstreamOf p from rfl,
      show (sharing list statics p).state.sequenceLen = p.state.sequenceLen from rfl,
      show (sharing list statics p).free = p.free from rfl]
    rcases (bitstreamOf p).readBytes build (min p.state.sequenceLen p.free) with
      fault | ⟨bytes, canReadAll, after⟩
    · rfl
    · simp only [apply_ite (Except.map (sharingAfter list statics))]
      rfl
  case loadFixedHuffmanDecoders => exact absurd hstep hfixed
  case loadDynamicHuffmanDecoders =>
    exact reading_sharing list statics p _ fun symcount q ↦ rfl
  case loadFrontDecoder => exact absurd (.inl hstep) hfills
  case loadLiteralDecoder => exact absurd (.inr (.inl hstep)) hfills
  case loadDistanceDecoder => exact absurd (.inr (.inr hstep)) hfills
  case processCompressedBlock | readLiteralOrLength =>
    exact hsymbol (by simp [InCodes, hstep])
  case readLiteralOrLength2 =>
    unfold passReadLiteralOrLength2
    rw [show (sharing list statics p).state.outputBuf = p.state.outputBuf from rfl,
      show (sharing list statics p).state.literal = p.state.literal from rfl]
    simp only
    rcases infOutbufPutc build p.state.outputBuf (UInt8.ofNat p.state.literal) with
      fault | outputBuf <;>
    · simp only [apply_ite (Except.map (sharingAfter list statics))]
      rfl
  case readLengthBits =>
    unfold passReadLengthBits
    rw [show (sharing list statics p).state.literal = p.state.literal from rfl]
    rcases staticEntry lengthExtraBits p.state.literal with fault | extraBits
    · rfl
    · rcases staticEntry lengthStarts p.state.literal with fault | start
      · rfl
      · simp only [bind, Except.bind]
        refine reading_sharing list statics p _ fun temp q ↦ ?_
        rcases build.assert (decide (temp + start < 32 * 1024)) with fault | _ <;> rfl
  case readDistance =>
    rw [passReadDistance, passReadDistance,
      show (sharing list statics p).state.distanceDecoder = p.state.distanceDecoder from rfl,
      hdistance (by simp [InCodes, hstep])]
    rcases p.state.decoder p.state.distanceDecoder with fault | decoder
    · rfl
    · simp only [bind, Except.bind]
      refine reading_sharing list statics p _ fun literal q ↦ ?_
      simp only [apply_ite (Except.map (sharingAfter list statics))]
      rfl
  case readDistanceBits =>
    unfold passReadDistanceBits
    rw [show (sharing list statics p).state.literal = p.state.literal from rfl]
    rcases staticEntry distanceExtraBits p.state.literal with fault | extraBits
    · rfl
    · rcases staticEntry distanceStarts p.state.literal with fault | start
      · rfl
      · simp only [bind, Except.bind]
        refine reading_sharing list statics p _ fun temp q ↦ ?_
        rcases build.assert (decide (temp + start < 32 * 1024)) with fault | _ <;> rfl
  case outputSequence =>
    unfold passOutputSequence
    rw [show (sharing list statics p).state.outputBuf = p.state.outputBuf from rfl,
      show (sharing list statics p).state.sequenceDist = p.state.sequenceDist from rfl,
      show (sharing list statics p).state.sequenceLen = p.state.sequenceLen from rfl,
      show (sharing list statics p).free = p.free from rfl]
    simp only
    rcases infOutbufRead build p.state.outputBuf p.state.sequenceDist
      (min p.state.sequenceLen p.free) with fault | ⟨succ, bytes, outputBuf⟩
    · rfl
    · simp only [apply_ite (Except.map (sharingAfter list statics))]
      rfl
  case adler32Checksum =>
    unfold passAdler32Checksum
    simp only [apply_ite (Except.map (sharingAfter list statics))]
    rfl

end Frame

/-- The readers of code lengths, and what follows them. -/
theorem listing_mirrors {q q' : InfPass} {read read' : Except Fault (Bool × InfSLList × InfBS)}
    {next : InfPass → Except Fault InfEffect} (hpass : q' = q.inState q'.state)
    (h : Mirrors q.state q'.state) (hread : Matched (SameRead True) read read')
    (hnext : ∀ q q', q' = q.inState q'.state → Mirrors q.state q'.state →
      Matched (Effect.Alike Mirrors) (next q) (next q')) :
    Matched (Effect.Alike Mirrors) (listing q read next) (listing q' read' next) := by
  have hafter : ∀ {list list' : InfSLList} (after : InfBS), SameList True list list' →
      withState (withBitstream q' after) (fun st ↦ { st with sllist := list' }) =
        (withState (withBitstream q after) fun st ↦ { st with sllist := list }).inState
          { q'.state with bits := after.bits, size := after.size, sllist := list' } ∧
      Mirrors { q.state with bits := after.bits, size := after.size, sllist := list }
        { q'.state with bits := after.bits, size := after.size, sllist := list' } := by
    intro list list' after hlist
    refine ⟨?_, ?_, hlist⟩
    · rw [hpass]
      rfl
    · rw [h.same]
  cases hread with
  | fault fault => exact .fault fault
  | ok hsame =>
    obtain @⟨done, list, list', hlist, after⟩ := hsame
    obtain ⟨hpass', hmirrors⟩ := hafter after hlist
    cases done with
    | false => exact .ok ⟨hmirrors, hpass', rfl, rfl⟩
    | true => exact hnext _ _ hpass' hmirrors

/-- The ends of the header steps: both lists are sorted to the same chain. -/
theorem makeDecoder_mirrors {q q' : InfPass} (hpass : q' = q.inState q'.state)
    (h : Mirrors q.state q'.state) (resetRepetitions : Bool) (table : HuffTable)
    (store : InfSLList → HuffTable → InfCore → InfCore)
    (hstore : ∀ {list list' : InfSLList} (table : HuffTable) {st st' : InfCore},
      Mirrors st st' → SameList True list list' → Mirrors (store list table st) (store list' table st'))
    (next : InfStep) :
    Matched (Effect.Alike Mirrors)
      (do
        let (sorted, list) ← infSLListGetSorted q.state.sllist resetRepetitions
        let made ← infHuffMakeDecoder build table sorted
        goto (withState q (store list made)) next)
      (do
        let (sorted, list) ← infSLListGetSorted q'.state.sllist resetRepetitions
        let made ← infHuffMakeDecoder build table sorted
        goto (withState q' (store list made)) next) := by
  refine (h.list.infSLListGetSorted resetRepetitions).bind ?_
  rintro ⟨chain, list⟩ ⟨chain', list'⟩ ⟨rfl, hlist, -⟩
  refine (Matched.refl (R := fun made made' ↦ made' = made) _ fun _ _ ↦ rfl).bind ?_
  rintro _ made rfl
  have hmirrors := hstore made h hlist
  refine .ok ⟨⟨?_, hmirrors.list⟩, ?_, rfl, rfl⟩
  · simp only [withState]
    rw [hmirrors.same]
  · simp only [withState]
    rw [hpass]
    rfl

theorem passLoadFrontDecoder_mirrors {q q' : InfPass} (hpass : q' = q.inState q'.state)
    (h : Mirrors q.state q'.state) : Matched (Effect.Alike Mirrors) (passLoadFrontDecoder build q)
      (passLoadFrontDecoder build q') := by
  have hbits : bitstreamOf q' = bitstreamOf q := by rw [hpass, h.same]; rfl
  have hcount : q'.state.symcount = q.state.symcount := by rw [h.same]
  rw [passLoadFrontDecoder, passLoadFrontDecoder, hbits, hcount]
  refine listing_mirrors hpass h (h.list.infSLListAdd3BitSymlens _ _) fun q q' hpass h ↦ ?_
  have htable : q'.state.huffmanTableA = q.state.huffmanTableA := by rw [h.same]
  rw [htable]
  exact makeDecoder_mirrors hpass h true _
    (fun list table st ↦
      { st with sllist := list, huffmanTableA := table, frontDecoder := some .huffmanTableA })
    (fun table st st' h hlist ↦ ⟨by rw [h.same], hlist⟩) _

/-- The alphabets of a block, where both headers have made the same table for their lengths. -/
theorem passLoadLiteralDecoder_mirrors {q q' : InfPass} (hpass : q' = q.inState q'.state)
    (h : Mirrors q.state q'.state) (hfront : q.state.frontDecoder = some .huffmanTableA) :
    Matched (Effect.Alike Mirrors) (passLoadLiteralDecoder build q)
      (passLoadLiteralDecoder build q') := by
  have hbits : bitstreamOf q' = bitstreamOf q := by rw [hpass, h.same]; rfl
  have hcount : q'.state.symcount = q.state.symcount := by rw [h.same]
  have hdecoder : q.state.decoder q.state.frontDecoder = .ok q.state.huffmanTableA := by
    rw [hfront]
    rfl
  have hdecoder' : q'.state.decoder q'.state.frontDecoder = .ok q.state.huffmanTableA := by
    rw [h.same]
    simp only [hfront]
    rfl
  rw [passLoadLiteralDecoder, passLoadLiteralDecoder, hbits, hcount, hdecoder, hdecoder']
  refine (Matched.ok (R := fun decoder decoder' ↦ decoder' = decoder) rfl).bind ?_
  rintro _ decoder rfl
  refine listing_mirrors hpass h (h.list.encodedSymlensLoop _ _ _ _) fun q q' hpass h ↦ ?_
  have htable : q'.state.huffmanTableB = q.state.huffmanTableB := by rw [h.same]
  rw [htable]
  exact makeDecoder_mirrors hpass h false _
    (fun list table st ↦
      { st with sllist := list, huffmanTableB := table, literalDecoder := some .huffmanTableB })
    (fun table st st' h hlist ↦ ⟨by rw [h.same], hlist⟩) _

theorem passLoadDistanceDecoder_mirrors {q q' : InfPass} (hpass : q' = q.inState q'.state)
    (h : Mirrors q.state q'.state) (hfront : q.state.frontDecoder = some .huffmanTableA) :
    Matched (Effect.Alike Mirrors) (passLoadDistanceDecoder build q)
      (passLoadDistanceDecoder build q') := by
  have hbits : bitstreamOf q' = bitstreamOf q := by rw [hpass, h.same]; rfl
  have hcount : q'.state.symcount = q.state.symcount := by rw [h.same]
  have hdecoder : q.state.decoder q.state.frontDecoder = .ok q.state.huffmanTableA := by
    rw [hfront]
    rfl
  have hdecoder' : q'.state.decoder q'.state.frontDecoder = .ok q.state.huffmanTableA := by
    rw [h.same]
    simp only [hfront]
    rfl
  rw [passLoadDistanceDecoder, passLoadDistanceDecoder, hbits, hcount, hdecoder, hdecoder']
  refine (Matched.ok (R := fun decoder decoder' ↦ decoder' = decoder) rfl).bind ?_
  rintro _ decoder rfl
  refine listing_mirrors hpass h (h.list.encodedSymlensLoop _ _ _ _) fun q q' hpass h ↦ ?_
  have htable : q'.state.huffmanTableA = q.state.huffmanTableA := by rw [h.same]
  rw [htable]
  exact makeDecoder_mirrors hpass h true _
    (fun list table st ↦
      { st with sllist := list, huffmanTableA := table, distanceDecoder := some .huffmanTableA })
    (fun table st st' h hlist ↦ ⟨by rw [h.same], hlist⟩) _

/-- The fixed decoders, made or found. -/
theorem passLoadFixedHuffmanDecoders_mirrors {q q' : InfPass} (hpass : q' = q.inState q'.state)
    (h : Shares build q.state q'.state) (hstep : q.state.step = .loadFixedHuffmanDecoders) :
    Matched (Effect.Alike Mirrors) (passLoadFixedHuffmanDecoders build q)
      (passLoadFixedHuffmanDecoders build q') := by
  have hstep' : q'.state.step = q.state.step := by rw [h.same]
  obtain ⟨literal, list₁, hliteral⟩ := makesOwn_literal h.tidy.statics
    (h.tidy.orderly.fresh (by simp [FillsList, hstep]))
  obtain ⟨distance, list₂, hdistance⟩ := makesOwn_distance h.tidy.statics hliteral.fresh
  obtain ⟨literal', list₁', hliteral'⟩ := makesOwn_literal h.tidy'.statics
    (h.tidy'.orderly.fresh (by simp [FillsList, hstep', hstep]))
  obtain ⟨distance', list₂', hdistance'⟩ := makesOwn_distance h.tidy'.statics hliteral'.fresh
  have hlist : SameList True list₂ list₂' := hdistance.fresh.sameList hdistance'.fresh fun _ ↦ by
    rw [hdistance.lengthsBySymbol, hdistance'.lengthsBySymbol, hliteral.lengthsBySymbol,
      hliteral'.lengthsBySymbol, h.list.lengthsBySymbol trivial]
  simp only [passLoadFixedHuffmanDecoders, hliteral.made, hdistance.made, hliteral'.made,
    hdistance'.made, bind, Except.bind]
  refine .ok ⟨⟨?_, hlist⟩, ?_, rfl, rfl⟩
  · simp only [withState]
    rw [h.same]
  · simp only [withState]
    rw [hpass]
    rfl

/-- Decoders of one program go on in lockstep. -/
theorem lockstep_inflateStep (build : Build) : Lockstep (inflateStep build) (Shares build) := by
  intro p st h
  have hmatched : Matched (Effect.Alike Mirrors) (inflateStep build p)
      (inflateStep build (p.inState st)) := by
    have hstep' : (p.inState st).state.step = p.state.step := by
      show st.step = p.state.step
      rw [h.same]
    by_cases hfixed : p.state.step = .loadFixedHuffmanDecoders
    · rw [inflateStep_eq, inflateStep_eq, hstep', hfixed]
      exact passLoadFixedHuffmanDecoders_mirrors rfl h hfixed
    by_cases hfills : FillsList p.state.step
    · rw [inflateStep_eq, inflateStep_eq, hstep']
      rcases hfills with hstep | hstep | hstep <;> simp only [hstep, passOf]
      · exact passLoadFrontDecoder_mirrors rfl h.toMirrors
      · exact passLoadLiteralDecoder_mirrors rfl h.toMirrors (h.tidy.front (.inl hstep))
      · exact passLoadDistanceDecoder_mirrors rfl h.toMirrors (h.tidy.front (.inr hstep))
    · have hpass : p.inState st = sharing st.sllist st.statics p :=
        congrArg p.inState h.same
      have hdecoders : InCodes p.state.step → _ := fun hcodes ↦ h.decoder_eq hcodes
      rw [show st = (sharing st.sllist st.statics p).state from h.same] at hdecoders
      rw [hpass, inflateStep_sharing st.sllist st.statics hfills hfixed]
      · rcases hx : inflateStep build p with fault | e
        · exact .fault fault
        · have hlist : e.pass.state.sllist = p.state.sllist :=
            congrArg Decoders.sllist (decodersOf_of_step hfills hfixed hx)
          exact .ok ⟨⟨rfl, by rw [hlist]; exact h.list⟩, rfl, rfl, rfl⟩
      · exact fun hcodes ↦ (hdecoders hcodes).1
      · exact fun hcodes ↦ (hdecoders hcodes).2
  generalize hx : inflateStep build p = x at hmatched
  generalize hy : inflateStep build (p.inState st) = y at hmatched
  cases hmatched with
  | fault fault => exact .fault fault
  | ok hsame =>
    exact .ok ⟨⟨hsame.state, h.tidy.step hx, @Tidy.step build (p.inState st) _ h.tidy' hy⟩,
      hsame.pass, hsame.stored, hsame.signal⟩

/-- Statics that were set stay set. -/
structure Statics.Grows (statics statics' : Statics) : Prop where
  literal : statics.cachedLiteral ≠ none → statics'.cachedLiteral ≠ none
  distance : statics.cachedDistance ≠ none → statics'.cachedDistance ≠ none

theorem grows_of_step (hp : inflateStep build p = .ok e) :
    p.state.statics.Grows e.pass.state.statics := by
  by_cases hfixed : p.state.step = .loadFixedHuffmanDecoders
  · rw [inflateStep_eq] at hp
    simp only [hfixed, passOf, passLoadFixedHuffmanDecoders] at hp
    obtain ⟨_, -, hp⟩ := bind_ok hp
    obtain ⟨_, -, hp⟩ := bind_ok hp
    cases hp
    exact ⟨fun _ ↦ by simp [withState], fun _ ↦ by simp [withState]⟩
  have hsame : e.pass.state.statics = p.state.statics := by
    by_cases hfills : FillsList p.state.step
    · rw [inflateStep_eq] at hp
      rcases hfills with hstep | hstep | hstep <;> simp only [hstep, passOf] at hp
      · rcases listing_ok hp with ⟨list, after, -, rfl⟩ | ⟨list, after, -, hnext⟩
        · rfl
        · obtain ⟨_, -, hnext⟩ := bind_ok hnext
          obtain ⟨_, -, hnext⟩ := bind_ok hnext
          cases hnext
          rfl
      all_goals
        obtain ⟨_, -, hp⟩ := bind_ok hp
        rcases listing_ok hp with ⟨list, after, -, rfl⟩ | ⟨list, after, -, hnext⟩
        · rfl
        · obtain ⟨_, -, hnext⟩ := bind_ok hnext
          obtain ⟨_, -, hnext⟩ := bind_ok hnext
          cases hnext
          rfl
    · exact congrArg Decoders.statics (decodersOf_of_step hfills hfixed hp)
  rw [hsame]
  exact ⟨fun h ↦ h, fun h ↦ h⟩

/-- Tidy pointers stay tidy when another decoder sets the statics. -/
theorem Tidy.of_grows {st : InfCore} {statics : Statics} (h : Tidy build st)
    (hgrows : st.statics.Grows statics) (hown : OwnStatics build statics) :
    Tidy build { st with statics := statics } := by
  refine ⟨⟨h.orderly.low, h.orderly.fresh⟩, hown, h.front, h.literal, fun hcodes ↦ ?_⟩
  rcases h.codes hcodes with htables | ⟨hfixed, hliteral, hdistance⟩
  · exact .inl htables
  · exact .inr ⟨hfixed, hgrows.literal hliteral, hgrows.distance hdistance⟩

end Passes

/-! ### Calls -/

/-- Inflaters of one program that have come equally far. -/
structure SharesState (build : Build) (st st' : InfState) : Prop where
  core : Shares build st.core st'.core
  same : st' = { st with core := st'.core }

/-- The same results, and inflaters that have come equally far. -/
structure SameResult (build : Build) (r r' : InflateResult) : Prop where
  code : r'.code = r.code
  strm : r'.strm = r.strm
  stored : r'.stored = r.stored
  state : SharesState build r.state r'.state

section Calls

variable {build : Build} {memory : Memory} {strm : ZStream} {st st' : InfState}

theorem decodeBuffer_shares (h : SharesState build st st') (inputBuffer : ℕ) :
    Matched (SameResult build) (decodeBuffer build memory strm st inputBuffer)
      (decodeBuffer build memory strm st' inputBuffer) := by
  have hptr : st'.inputPtr = st.inputPtr := by rw [h.same]
  have hend : st'.inputEnd = st.inputEnd := by rw [h.same]
  have hassert : ∀ condition, Matched (fun _ _ ↦ True) (build.assert condition)
      (build.assert condition) := fun condition ↦ .refl _ fun _ _ ↦ trivial
  rw [decodeBuffer, decodeBuffer, hptr, hend]
  refine (hassert _).bind fun _ _ _ ↦ (hassert _).bind fun _ _ _ ↦ ?_
  by_cases hbehind : st.inputEnd < st.inputPtr
  · rw [if_pos hbehind, if_pos hbehind]
    exact .fault Fault.inputRange
  · rw [if_neg hbehind, if_neg hbehind]
    have hsize : st'.core.size = st.core.size := by rw [h.core.same]
    have hrun := (lockstep_inflateStep build).run .endlessLoop
      (passBound (entryPass memory strm st) + 1) (entryPass memory strm st) st'.core h.core
    have hbound : passBound ((entryPass memory strm st).inState st'.core) =
        passBound (entryPass memory strm st) := by
      simp only [passBound, Pass.inState, entryPass, hsize]
    rw [← hbound] at hrun
    nth_rewrite 1 [hbound] at hrun
    refine hrun.bind fun e e' hsame ↦ .ok ?_
    have hinput : e'.pass.input = e.pass.input := by rw [hsame.pass]; rfl
    have hfree : e'.pass.free = e.pass.free := by rw [hsame.pass]; rfl
    refine ⟨?_, ?_, hsame.stored, hsame.state, ?_⟩
    · simp only [closeCall, hsame.signal]
    · simp only [closeCall, hsame.signal, hinput, hfree, hend]
    · simp only [closeCall, hsame.signal, hinput, hend]

/-- A call finds other statics, and gives the same result. -/
theorem inflate_shares (h : SharesState build st st') :
    Matched (SameResult build) (inflate build memory strm st) (inflate build memory strm st') := by
  have haction : st'.action = st.action := by rw [h.same]
  have hassert : ∀ condition, Matched (fun _ _ ↦ True) (build.assert condition)
      (build.assert condition) := fun condition ↦ .refl _ fun _ _ ↦ trivial
  have hmoved : ∀ action inputPtr inputEnd,
      SharesState build { st with action := action, inputPtr := inputPtr, inputEnd := inputEnd }
        { st' with action := action, inputPtr := inputPtr, inputEnd := inputEnd } :=
    fun action inputPtr inputEnd ↦ ⟨h.core, rfl⟩
  have hptr : st'.inputPtr = st.inputPtr := by rw [h.same]
  have hend : st'.inputEnd = st.inputEnd := by rw [h.same]
  rw [inflate, inflate, haction]
  refine (hassert _).bind fun _ _ _ ↦ ?_
  cases hcase : st.action with
  | init =>
    simp only
    by_cases hcmf : memory strm.nextIn ≠ 0x78
    · rw [if_pos hcmf, if_pos hcmf]
      exact .ok ⟨rfl, rfl, rfl, hmoved .init _ _⟩
    rw [if_neg hcmf, if_neg hcmf]
    by_cases hone : strm.availIn = 1
    · rw [if_pos hone, if_pos hone]
      exact .ok ⟨rfl, rfl, rfl, hmoved .feed2ndZlibHeaderByte _ _⟩
    rw [if_neg hone, if_neg hone]
    by_cases htwo : strm.availIn = 2
    · rw [if_pos htwo, if_pos htwo]
      exact .ok ⟨rfl, rfl, rfl, hmoved .fillInputBuffer _ _⟩
    rw [if_neg htwo, if_neg htwo]
    exact decodeBuffer_shares (hmoved .init _ _) _
  | feed2ndZlibHeaderByte =>
    simp only
    rw [hptr, hend]
    by_cases hone : strm.availIn = 1
    · rw [if_pos hone, if_pos hone]
      exact .ok ⟨rfl, rfl, rfl, hmoved .fillInputBuffer _ _⟩
    rw [if_neg hone, if_neg hone]
    exact decodeBuffer_shares (hmoved .feed2ndZlibHeaderByte _ _) _
  | fillInputBuffer => exact decodeBuffer_shares (hmoved .fillInputBuffer _ _) _
  | useOutputBufferContent => exact decodeBuffer_shares h _
  | processNextChunk => exact decodeBuffer_shares h _
  | finish => exact .ok ⟨rfl, rfl, rfl, h⟩

/-- A call leaves the pointers tidy, and the statics that were set. -/
theorem Tidy.inflate {r : InflateResult} (h : Tidy build st.core)
    (hr : Muzic.inflate build memory strm st = .ok r) :
    Tidy build r.state.core ∧ st.core.statics.Grows r.state.core.statics := by
  rcases inflate_cases hr with ⟨hcore, -⟩ | ⟨strm', st', inputBuffer, hcore, -, hdecode⟩
  · rw [hcore]
    exact ⟨h, fun hset ↦ hset, fun hset ↦ hset⟩
  · obtain ⟨e, hrun, rfl⟩ := decodeBuffer_ok hdecode
    refine @run_invariant _ _ _ _ _ (inflateStep build)
      (fun core ↦ Tidy build core ∧ st.core.statics.Grows core.statics) (fun p e hp hstep ↦ ?_)
      .endlessLoop _ (entryPass memory strm' st') e ?_ hrun
    · have hgrows := grows_of_step hstep
      exact ⟨hp.1.step hstep, fun hset ↦ hgrows.literal (hp.2.literal hset),
        fun hset ↦ hgrows.distance (hp.2.distance hset)⟩
    · show Tidy build st'.core ∧ st.core.statics.Grows st'.core.statics
      rw [hcore]
      exact ⟨h, fun hset ↦ hset, fun hset ↦ hset⟩

end Calls

/-! ### Programs with many streams -/

/-- The inflaters of a program: the static variables of the file, the decoder behind each stream, and what
the calls on it returned and stored. -/
structure Inflaters (ι : Type) where
  statics : Statics
  decoders : ι → Option InfState
  results : ι → List (ZCode × ZStream × List UInt8)

/-- What a program does to its streams; `heap` is what lies in the memory that is obtained. -/
inductive StreamEvent (ι : Type)
  | init (stream : ι) (heap : InfState)
  | call (stream : ι) (memory : Memory) (strm : ZStream)
  | «end» (stream : ι)

def StreamEvent.stream {ι : Type} : StreamEvent ι → ι
  | .init stream _ => stream
  | .call stream _ _ => stream
  | .end stream => stream

section Programs

variable {ι : Type}

/-- The decoder behind a stream, with the static variables as its next call finds them. -/
def Inflaters.found (s : Inflaters ι) (stream : ι) : Option InfState :=
  (s.decoders stream).map fun st ↦ { st with core := { st.core with statics := s.statics } }

/-- Before the first stream. -/
def Inflaters.start : Inflaters ι where
  statics := ⟨none, none⟩
  decoders _ := none
  results _ := []

/-- The statics are their functions', and all pointers to them are tidy. -/
structure Inflaters.Sound (build : Build) (s : Inflaters ι) : Prop where
  statics : OwnStatics build s.statics
  tidy : ∀ stream st, s.found stream = some st → Tidy build st.core

/-- A program beside the one that has only one of its streams. -/
structure Beside (build : Build) (stream : ι) (s s' : Inflaters ι) : Prop where
  sound : s.Sound build
  sound' : s'.Sound build
  found : Option.Rel (SharesState build) (s.found stream) (s'.found stream)
  results : s'.results stream = s.results stream

variable {build : Build} {s s' next next' : Inflaters ι} {stream : ι} {event : StreamEvent ι}

/-- What the next call on a stream finds, from what an earlier one would have found. -/
theorem found_of_decoders (h : next.decoders stream = s.decoders stream) :
    next.found stream =
      (s.found stream).map fun st ↦ { st with core := { st.core with statics := next.statics } } := by
  rw [Inflaters.found, Inflaters.found, h, Option.map_map]
  rfl

/-- Memory that is obtained for an inflater holds one that is as far as any other. -/
theorem sharesState_init (hown : OwnStatics build s.statics) (hown' : OwnStatics build s'.statics)
    (heap : InfState) :
    SharesState build (inflateInit s.statics heap) (inflateInit s'.statics heap) where
  core :=
    { same := rfl
      list := by
        have hfresh := (tidy_init build hown heap).orderly.fresh (by simp [FillsList, inflateInit])
        exact hfresh.sameList hfresh fun _ ↦ rfl
      tidy := tidy_init build hown heap
      tidy' := tidy_init build hown' heap }
  same := rfl

theorem beside_start (build : Build) (stream : ι) : Beside build stream .start .start where
  sound := ⟨ownStatics_none build, fun stream st hfound ↦ by cases hfound⟩
  sound' := ⟨ownStatics_none build, fun stream st hfound ↦ by cases hfound⟩
  found := .none
  results := rfl

variable [DecidableEq ι]

/-- `inflateInit`, `inflate` and `inflateEnd` on one of the streams. -/
def Inflaters.step (build : Build) (s : Inflaters ι) : StreamEvent ι → Except Fault (Inflaters ι)
  | .init stream heap =>
    .ok { s with decoders := Function.update s.decoders stream (some (inflateInit s.statics heap)) }
  | .call stream memory strm =>
    match s.found stream with
    | none => .error .unsetPointer
    | some st => do
      let r ← inflate build memory strm st
      return {
        statics := r.state.core.statics
        decoders := Function.update s.decoders stream (some r.state)
        results := Function.update s.results stream
          (s.results stream ++ [(r.code, r.strm, r.stored)]) }
  | .end stream =>
    match s.decoders stream with
    | none => .error .unsetPointer
    | some _ => .ok { s with decoders := Function.update s.decoders stream none }

/-- A program. -/
def Inflaters.run (build : Build) (events : List (StreamEvent ι)) : Except Fault (Inflaters ι) :=
  events.foldlM (Inflaters.step build) .start

/-- A step leaves the other streams alone. -/
theorem step_others (hother : event.stream ≠ stream) (hstep : s.step build event = .ok next) :
    next.decoders stream = s.decoders stream ∧ next.results stream = s.results stream := by
  cases event with
  | init _ heap =>
    cases hstep
    exact ⟨Function.update_of_ne (Ne.symm hother) _ _, rfl⟩
  | call stream' memory strm =>
    simp only [Inflaters.step] at hstep
    split at hstep
    · cases hstep
    · obtain ⟨r, -, hstep⟩ := bind_ok hstep
      cases hstep
      exact ⟨Function.update_of_ne (Ne.symm hother) _ _,
        Function.update_of_ne (Ne.symm hother) _ _⟩
  | «end» stream' =>
    simp only [Inflaters.step] at hstep
    split at hstep
    · cases hstep
    · cases hstep
      exact ⟨Function.update_of_ne (Ne.symm hother) _ _, rfl⟩

/-- A program stays sound when its step leaves one decoder tidy, or none. -/
theorem Inflaters.Sound.of_step (h : s.Sound build) (hown : OwnStatics build next.statics)
    (hgrows : s.statics.Grows next.statics)
    (hothers : ∀ stream', stream' ≠ stream → next.decoders stream' = s.decoders stream')
    (htidy : ∀ st, next.found stream = some st → Tidy build st.core) : next.Sound build := by
  refine ⟨hown, fun stream' st hfound ↦ ?_⟩
  by_cases hstream : stream' = stream
  · subst hstream
    exact htidy st hfound
  · rw [found_of_decoders (hothers stream' hstream)] at hfound
    obtain ⟨st₀, hfound₀, rfl⟩ := Option.map_eq_some_iff.mp hfound
    have hstatics : st₀.core.statics = s.statics := by
      obtain ⟨_, -, rfl⟩ := Option.map_eq_some_iff.mp hfound₀
      rfl
    exact (h.tidy stream' st₀ hfound₀).of_grows (by rwa [hstatics]) hown

theorem Inflaters.Sound.step (h : s.Sound build) (hstep : s.step build event = .ok next) :
    next.Sound build ∧ s.statics.Grows next.statics := by
  have hothers : ∀ stream', stream' ≠ event.stream → next.decoders stream' = s.decoders stream' :=
    fun stream' hother ↦ (step_others (Ne.symm hother) hstep).1
  have hsame : s.statics.Grows s.statics := ⟨fun hset ↦ hset, fun hset ↦ hset⟩
  cases event with
  | init stream heap =>
    cases hstep
    refine ⟨h.of_step h.statics hsame hothers fun st hfound ↦ ?_, hsame⟩
    simp only [Inflaters.found, StreamEvent.stream, Function.update_self, Option.map_some,
      Option.some.injEq] at hfound
    subst hfound
    exact tidy_init build h.statics heap
  | call stream memory strm =>
    simp only [Inflaters.step] at hstep
    split at hstep
    · cases hstep
    · next st₀ hfound₀ =>
      obtain ⟨r, hr, hstep⟩ := bind_ok hstep
      cases hstep
      obtain ⟨htidy, hgrows⟩ := (h.tidy stream st₀ hfound₀).inflate hr
      have hstatics : st₀.core.statics = s.statics := by
        obtain ⟨_, -, rfl⟩ := Option.map_eq_some_iff.mp hfound₀
        rfl
      rw [hstatics] at hgrows
      refine ⟨h.of_step htidy.statics hgrows hothers fun st hfound ↦ ?_, hgrows⟩
      simp only [Inflaters.found, StreamEvent.stream, Function.update_self, Option.map_some,
        Option.some.injEq] at hfound
      subst hfound
      exact htidy
  | «end» stream =>
    simp only [Inflaters.step] at hstep
    split at hstep
    · cases hstep
    · cases hstep
      refine ⟨h.of_step h.statics hsame hothers fun st hfound ↦ ?_, hsame⟩
      simp only [Inflaters.found, StreamEvent.stream, Function.update_self, Option.map_none,
        reduceCtorEq] at hfound

/-- The events of a stream do the same beside other streams. -/
theorem Beside.own (h : Beside build event.stream s s') :
    Matched (Beside build event.stream) (s.step build event) (s'.step build event) := by
  have hsound : ∀ {next next'}, s.step build event = .ok next → s'.step build event = .ok next' →
      next.Sound build ∧ next'.Sound build :=
    fun hnext hnext' ↦ ⟨(h.sound.step hnext).1, (h.sound'.step hnext').1⟩
  cases event with
  | init stream heap =>
    obtain ⟨hnext, hnext'⟩ := hsound rfl rfl
    refine .ok ⟨hnext, hnext', ?_, h.results⟩
    simp only [Inflaters.found, StreamEvent.stream, Function.update_self, Option.map_some]
    exact .some (sharesState_init h.sound.statics h.sound'.statics heap)
  | call stream memory strm =>
    have hfound := h.found
    simp only [StreamEvent.stream] at hfound
    simp only [Inflaters.step] at hsound ⊢
    generalize hx : s.found stream = x at hfound hsound ⊢
    generalize hy : s'.found stream = y at hfound hsound ⊢
    cases hfound with
    | none => exact .fault Fault.unsetPointer
    | @some st st' hshares =>
      have hcall := @inflate_shares build memory strm st st' hshares
      simp only [bind, Except.bind] at hsound ⊢
      generalize inflate build memory strm st = result at hcall hsound ⊢
      generalize inflate build memory strm st' = result' at hcall hsound ⊢
      cases hcall with
      | fault fault => exact .fault fault
      | @ok r r' hsame =>
        obtain ⟨hnext, hnext'⟩ := hsound rfl rfl
        refine .ok ⟨hnext, hnext', ?_, ?_⟩
        · simp only [Inflaters.found, StreamEvent.stream, Function.update_self, Option.map_some]
          exact .some hsame.state
        · have hresults := h.results
          simp only [StreamEvent.stream, Function.update_self] at hresults ⊢
          rw [hresults, hsame.code, hsame.strm, hsame.stored]
  | «end» stream =>
    have hfound := h.found
    simp only [StreamEvent.stream, Inflaters.found] at hfound
    simp only [Inflaters.step] at hsound ⊢
    generalize s.decoders stream = x at hfound hsound ⊢
    generalize s'.decoders stream = y at hfound hsound ⊢
    rcases x with - | st <;> rcases y with - | st'
    · exact .fault Fault.unsetPointer
    · cases hfound
    · cases hfound
    · obtain ⟨hnext, hnext'⟩ := hsound rfl rfl
      refine .ok ⟨hnext, hnext', ?_, h.results⟩
      simp only [Inflaters.found, StreamEvent.stream, Function.update_self, Option.map_none]
      exact .none

/-- The events of other streams change at most which statics are set. -/
theorem Beside.others (h : Beside build stream s s') (hother : event.stream ≠ stream)
    (hstep : s.step build event = .ok next) : Beside build stream next s' := by
  obtain ⟨hdecoders, hresults⟩ := step_others hother hstep
  obtain ⟨hsound, hgrows⟩ := h.sound.step hstep
  refine ⟨hsound, h.sound', ?_, h.results.trans hresults.symm⟩
  have hfound := h.found
  have htidy := hsound.tidy stream
  rw [found_of_decoders hdecoders] at htidy ⊢
  generalize s.found stream = x at hfound htidy ⊢
  generalize s'.found stream = y at hfound ⊢
  cases hfound with
  | none => exact .none
  | @some st st' hshares =>
    refine .some ⟨⟨⟨?_, hshares.core.list⟩, htidy _ rfl, hshares.core.tidy'⟩, ?_⟩
    · rw [hshares.core.same]
    · rw [hshares.same]

theorem interleaved_step (build : Build) :
    Interleaved (Inflaters.step build) (@StreamEvent.stream ι) (Beside build) where
  own _ _ _ h := h.own
  others hother h hstep := h.others hother hstep

/-- In every order of calls on any number of streams, each stream gets the results that it gets alone; and
where the program faults, one of the streams does so alone. -/
theorem interleaved_alone (build : Build) (events : List (StreamEvent ι)) :
    (∀ last, Inflaters.run build events = .ok last → ∀ stream, ∃ alone,
      Inflaters.run build (eventsOf StreamEvent.stream stream events) = .ok alone ∧
        alone.results stream = last.results stream) ∧
    ∀ fault, Inflaters.run build events = .error fault → ∃ stream,
      Inflaters.run build (eventsOf StreamEvent.stream stream events) = .error fault := by
  refine ⟨fun last hrun stream ↦ ?_, fun fault hrun ↦ ?_⟩
  · obtain ⟨alone, halone, hbeside⟩ :=
      (interleaved_step build).alone stream events (beside_start build stream) hrun
    exact ⟨alone, halone, hbeside.results⟩
  · exact (interleaved_step build).fault events (fun stream ↦ beside_start build stream) hrun

end Programs

end ZephyrThrift.Muzic
