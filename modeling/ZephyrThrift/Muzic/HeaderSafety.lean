import ZephyrThrift.Muzic.HeaderDecoding
import ZephyrThrift.Muzic.Orderly

/-!
# Dynamic headers from the network

No pass over a dynamic header ends with an error, and none checks what the header describes. So a
header is safe in the sense that every index stays in its array, that the scan for the first length
ends and that an unusable header is rejected, exactly when it is not an unusable one
(`headerSafe_iff`).
-/

set_option autoImplicit false
set_option relaxedAutoImplicit false

namespace ZephyrThrift.Muzic

open Foundation

instance (step : InfStep) : Decidable (InHeader step) := inferInstanceAs (Decidable (_ ∨ _ ∨ _ ∨ _))

/-- The loop body restricted to a dynamic header: it ends behind the header. -/
def headerStep (build : Build) (p : InfPass) : Except Fault InfEffect :=
  if InHeader p.state.step then inflateStep build p else .ok ⟨p, [], .needOutput⟩

theorem followsHeader_headerStep (build : Build) : FollowsHeader build (headerStep build) :=
  fun _ hheader ↦ if_pos hheader

section Header

variable {build : Build} {p : InfPass} {e : InfEffect}

/-- A pass that waits for input does not leave its step. -/
theorem step_of_needInput (hp : inflateStep build p = .ok e) (hneed : e.signal = .needInput) :
    e.pass.state.step = p.state.step := by
  rw [inflateStep_eq] at hp
  exact (passOf_law build p.state.step).2 p e hp hneed

theorem resumable_headerStep (build : Build) : Resumable (headerStep build) where
  fault p fault more h := by
    by_cases hheader : InHeader p.state.step
    · rw [headerStep, if_pos hheader] at h
      exact (if_pos hheader).trans ((resumable_inflateStep build).fault p fault more h)
    · rw [headerStep, if_neg hheader] at h
      cases h
  settle p e h hs := by
    by_cases hheader : InHeader p.state.step
    · rw [headerStep, if_pos hheader] at h
      obtain ⟨used, hused, hsame⟩ := (resumable_inflateStep build).settle p e h hs
      exact ⟨used, hused, fun rest ↦ (if_pos hheader).trans (hsame rest)⟩
    · rw [headerStep, if_neg hheader] at h
      cases h
      exact ⟨[], rfl, fun rest ↦ if_neg hheader⟩
  suspend p e more h hneed := by
    by_cases hheader : InHeader p.state.step
    · rw [headerStep, if_pos hheader] at h
      obtain ⟨hinput, hsame⟩ := (resumable_inflateStep build).suspend p e more h hneed
      have hheader' : InHeader e.pass.state.step := by rwa [step_of_needInput h hneed]
      have hfirst : headerStep build (p.feed more) = inflateStep build (p.feed more) :=
        if_pos hheader
      have hsecond : headerStep build (e.pass.feed more) = inflateStep build (e.pass.feed more) :=
        if_pos hheader'
      exact ⟨hinput, by rw [hfirst, hsecond, hsame]⟩
    · rw [headerStep, if_neg hheader] at h
      cases h
      cases hneed

/-- No pass over a header ends the loop with a result. -/
theorem not_halt_headerStep (hp : headerStep build p = .ok e) (result : BlockResult) :
    e.signal ≠ .halt result := by
  by_cases hheader : InHeader p.state.step
  · rw [headerStep, if_pos hheader, inflateStep_eq] at hp
    rcases hheader with hstep | hstep | hstep | hstep <;> simp only [hstep, passOf] at hp
    · rcases reading_ok hp with ⟨after, _, rfl⟩ | ⟨_, after, _, hnext⟩
      · simp
      · cases hnext
        simp
    · rcases listing_ok hp with ⟨_, _, _, rfl⟩ | ⟨_, _, _, hnext⟩
      · simp
      · obtain ⟨_, _, hnext⟩ := bind_ok hnext
        obtain ⟨_, _, hnext⟩ := bind_ok hnext
        cases hnext
        simp
    all_goals
      obtain ⟨_, _, hp⟩ := bind_ok hp
      rcases listing_ok hp with ⟨_, _, _, rfl⟩ | ⟨_, _, _, hnext⟩
      · simp
      · obtain ⟨_, _, hnext⟩ := bind_ok hnext
        obtain ⟨_, _, hnext⟩ := bind_ok hnext
        cases hnext
        simp
  · rw [headerStep, if_neg hheader] at hp
    cases hp
    simp

theorem not_halt_of_runsOver {pieces : List (List UInt8)}
    (h : RunsOver (headerStep build) p pieces (.ok e)) (result : BlockResult) :
    e.signal ≠ .halt result := by
  have hruns : ∀ (p : InfPass) (e : InfEffect), Runs (headerStep build) p (.ok e) →
      e.signal ≠ .halt result := fun p e hrun ↦
    Runs.invariant (fun e : InfEffect ↦ e.signal ≠ .halt result)
      (fun _ _ (_ : True) _ _ ↦ trivial) (fun _ _ _ hp _ ↦ not_halt_headerStep hp result)
      (fun _ _ h ↦ h) hrun trivial e rfl
  exact RunsOver.final hruns (fun _ _ h ↦ h) h e rfl

/-- The passes over a header, whose bytes come in pieces, are safe: they end without a fault, and
with an error where no further bits can make the header usable. -/
def HeaderSafe (build : Build) (p : InfPass) (pieces : List (List UInt8)) : Prop :=
  ∃ e, RunsOver (headerStep build) p pieces (.ok e) ∧
    (parseDynamicCodes (bitstreamOf (p.feed pieces.flatten)).view = .malformed →
      ∃ msg, e.signal = .halt (.dataError msg))

/-- In every reachable state and however the header is cut: it is safe if and only if its bits, as
far as they go, can still be a usable header. -/
theorem headerSafe_iff {st : InfState} (hst : Reachable build st) {input stored : List UInt8}
    {free : ℕ} (hreach : Reaches (inflateStep build) ⟨st.core, input, free⟩ stored p)
    (hstep : p.state.step = .loadDynamicHuffmanDecoders) (pieces : List (List UInt8)) :
    HeaderSafe build p pieces ↔
      parseDynamicCodes (bitstreamOf (p.feed pieces.flatten)).view ≠ .malformed := by
  constructor
  · rintro ⟨e, hover, hrejects⟩ hmalformed
    obtain ⟨msg, hhalt⟩ := hrejects hmalformed
    exact not_halt_of_runsOver hover _ hhalt
  · intro husable
    have horderly : Orderly p.state := Orderly.of_reaches hst.orderly hreach
    have hfresh : p.state.sllist.Fresh := horderly.fresh (by
      rw [hstep]
      rintro (h | h | h) <;> cases h)
    have hfaces : (bitstreamOf (p.feed pieces.flatten)).Faces (max 7 p.state.size)
        (bitstreamOf (p.feed pieces.flatten)).view := ⟨rfl, horderly.low, le_max_right _ _⟩
    obtain ⟨hdone, hshort⟩ := header_spec (p := p.feed pieces.flatten)
      (followsHeader_headerStep build) (le_max_left 7 p.state.size) hstep hfresh hfaces
    have hend : ∃ e, Runs (headerStep build) (p.feed pieces.flatten) (.ok e) := by
      cases hparse : parseDynamicCodes (bitstreamOf (p.feed pieces.flatten)).view with
      | malformed => exact absurd hparse husable
      | short =>
        obtain ⟨e, hruns, -⟩ := hshort hparse
        exact ⟨e, hruns⟩
      | done codes rest =>
        obtain ⟨q, hq, -, hloaded⟩ := hdone codes.1 codes.2 rest hparse
        have hlast : headerStep build q = .ok ⟨q, [], .needOutput⟩ :=
          if_neg (by rw [hloaded.step]; decide)
        exact ⟨_, hq.runs (Runs.stop hlast (by simp))⟩
    obtain ⟨e, hruns⟩ := hend
    obtain ⟨e', hover, -, -⟩ := Runs.over (resumable_headerStep build) pieces hruns
    exact ⟨e', hover, fun hmalformed ↦ absurd hmalformed husable⟩

end Header

/-- A header with one literal code, cut behind its first byte and once more. -/
theorem headerSafe_oneCode : ∃ p, p.state.step = .loadDynamicHuffmanDecoders ∧
    HeaderSafe ⟨false, none⟩ p [[0xC0, 0x81, 0x00, 0x00, 0x00], [0x00, 0x00, 0x90, 0xFF, 0x6B]] := by
  have hreach : Reaches (inflateStep ⟨false, none⟩) ⟨freshInflater.core, [0x05], 1⟩ _ _ :=
    .step rfl rfl (.step rfl rfl (.step rfl rfl (.refl _)))
  exact ⟨_, rfl, (headerSafe_iff (.init _ _) hreach rfl _).mpr (by decide +kernel)⟩

/-- A header whose four code lengths for the code length alphabet are zero. -/
def noCodeLengths : List UInt8 := [0x78, 0x01, 0x05, 0x00, 0x00, 0x00]

/-- The scan for the first length of such a header runs past the lists. -/
theorem noCodeLengths_fault :
    parseDynamicCodes ((bytesBits (noCodeLengths.drop 2)).drop 3) = .malformed ∧
      (inflate ⟨false, none⟩ (memoryOf noCodeLengths) (streamOf 6 1) freshInflater).map (·.code) =
        .error .headPtrIndex := by
  decide +kernel

end ZephyrThrift.Muzic
