import ZephyrThrift.Foundation.Windows
import ZephyrThrift.Muzic.ControlFlow

/-!
# Output in two windows

As long as the window ring does not wrap, a pass of the inflater may be cut at the end of the caller's
window: what it has stored is behind the write pointer when it goes on, so that the rest of a match is
copied from where it would have been copied (`infOutbufRead_cut`).
-/

set_option autoImplicit false
set_option relaxedAutoImplicit false

namespace ZephyrThrift.Muzic

open Foundation

/-! ### Reads of the window in two pieces -/

theorem ringBytes_add (infbuf : InfOutbuf) (offset first second : ℕ) :
    ringBytes infbuf offset (first + second) =
      ringBytes infbuf offset first ++ ringBytes infbuf (offset + first) second := by
  simp only [ringBytes, List.range_add, List.map_append, List.map_map]
  congr 1
  refine List.map_congr_left fun i _ ↦ ?_
  simp only [Function.comp, Nat.add_assoc]

@[simp] theorem length_ringBytes (infbuf : InfOutbuf) (offset count : ℕ) :
    (ringBytes infbuf offset count).length = count := by
  rw [ringBytes, List.length_map, List.length_range]

/-- Bytes that fit in front of the end of the ring move the write pointer by their number, and touch
nothing behind it. -/
theorem infOutbufWrite_fits {infbuf : InfOutbuf} {bytes : List UInt8}
    (hfits : infbuf.ptr + bytes.length ≤ infOutbufSize) :
    (infOutbufWrite infbuf bytes).ptr = infbuf.ptr + bytes.length ∧
      ∀ offset count, infbuf.ptr + bytes.length ≤ offset →
        ringBytes (infOutbufWrite infbuf bytes) offset count = ringBytes infbuf offset count := by
  rw [infOutbufWrite_eq, foldl_ringPut_of_fits _ _ (by omega)]
  refine ⟨rfl, fun offset count hoffset ↦ List.map_congr_left fun i _ ↦ ?_⟩
  simp only [copyInto]
  rw [if_neg (by omega)]

section Cut

variable {build : Build} {infbuf infbuf' : InfOutbuf} {distance first second : ℕ} {bytes : List UInt8}

/-- A copy in front of the write pointer, in two pieces. -/
theorem copyLoop_cut {place : ℕ} (hfits : infbuf.ptr + first ≤ infOutbufSize)
    (hcopy : copyLoop build (first + second) place infbuf = .ok (bytes, infbuf')) :
    ∃ front middle back, copyLoop build first place infbuf = .ok (front, middle) ∧
      middle.ptr = infbuf.ptr + first ∧
      copyLoop build second (place + first) middle = .ok (back, infbuf') ∧ bytes = front ++ back := by
  rw [copyLoop_add] at hcopy
  split at hcopy
  · cases hcopy
  · next front middle hfront =>
    split at hcopy
    · cases hcopy
    · next back last hback =>
      cases hcopy
      have hptr : infbuf.ptr ≤ infOutbufSize := by omega
      have hlength := (copyLoop_ptr_le _ hptr hfront).1
      refine ⟨front, middle, back, hfront, ?_, hback, rfl⟩
      rw [copyLoop_stores _ hptr hfront, ← infOutbufWrite_eq,
        (infOutbufWrite_fits (by omega)).1, hlength]

/-- A read whose source begins in front of the end of the ring. -/
theorem infOutbufRead_wrapped {count : ℕ} (hwrapped : infbuf.ptr < distance)
    (hsize : distance ≤ infOutbufSize) :
    infOutbufRead build infbuf distance count =
      let place := infbuf.ptr + infOutbufSize - distance
      let crossed := infOutbufWrite infbuf (ringBytes infbuf place (distance - infbuf.ptr))
      if count ≤ distance - infbuf.ptr then
        .ok (true, ringBytes infbuf place count, infOutbufWrite infbuf (ringBytes infbuf place count))
      else if crossed.ptr < count - (distance - infbuf.ptr) then
        .ok (false, ringBytes infbuf place (distance - infbuf.ptr), crossed)
      else (copyLoop build (count - (distance - infbuf.ptr)) 0 crossed).map fun rest ↦
        (true, ringBytes infbuf place (distance - infbuf.ptr) ++ rest.1, rest.2) := by
  have hrest : infOutbufSize - (infbuf.ptr + infOutbufSize - distance) = distance - infbuf.ptr := by
    omega
  rw [infOutbufRead, if_pos hwrapped, if_neg (by omega)]
  simp only [hrest]
  congr 2
  cases copyLoop build (count - (distance - infbuf.ptr)) 0 (infOutbufWrite infbuf
    (ringBytes infbuf (infbuf.ptr + infOutbufSize - distance) (distance - infbuf.ptr))) <;> rfl

/-- A read whose source begins in front of the write pointer. -/
theorem infOutbufRead_plain {count : ℕ} (hplain : distance ≤ infbuf.ptr) :
    infOutbufRead build infbuf distance count =
      (copyLoop build count (infbuf.ptr - distance) infbuf).map fun result ↦
        (true, result.1, result.2) := by
  rw [infOutbufRead, if_neg (not_lt.mpr hplain)]
  cases copyLoop build count (infbuf.ptr - distance) infbuf <;> rfl

/-- A read that ends in front of the end of the ring. -/
theorem read_cut_front (hsize : distance ≤ infOutbufSize) (hwrapped : infbuf.ptr < distance)
    (hfits : infbuf.ptr + (first + second) ≤ infOutbufSize)
    (hall : first + second ≤ distance - infbuf.ptr) :
    let front := ringBytes infbuf (infbuf.ptr + infOutbufSize - distance) first
    let back := ringBytes infbuf (infbuf.ptr + infOutbufSize - distance + first) second
    infOutbufRead build infbuf distance first = .ok (true, front, infOutbufWrite infbuf front) ∧
      infOutbufRead build (infOutbufWrite infbuf front) distance second =
        .ok (true, back, infOutbufWrite infbuf (front ++ back)) := by
  intro front back
  obtain ⟨hptr, hsame⟩ := @infOutbufWrite_fits infbuf front (by simp only [front, length_ringBytes]; omega)
  rw [length_ringBytes] at hptr hsame
  refine ⟨by rw [infOutbufRead_wrapped hwrapped hsize]; exact if_pos (by omega), ?_⟩
  by_cases hmore : infbuf.ptr + first < distance
  · have hplace : infbuf.ptr + first + infOutbufSize - distance =
        infbuf.ptr + infOutbufSize - distance + first := by omega
    rw [infOutbufRead_wrapped (by rw [hptr]; exact hmore) hsize]
    simp only [hptr, hplace, if_pos (show second ≤ distance - (infbuf.ptr + first) by omega)]
    rw [hsame _ _ (by omega), ← infOutbufWrite_append]
  · have hnone : second = 0 := by omega
    have hback : back = [] := by simp only [back, hnone]; rfl
    rw [infOutbufRead_plain (by rw [hptr]; omega), hnone, hback, List.append_nil]
    rfl

/-- A read that crosses the end of the ring, cut in front of it. -/
theorem read_cut_crossing {rest : List UInt8} (hsize : distance ≤ infOutbufSize)
    (hwrapped : infbuf.ptr < distance) (hfits : infbuf.ptr + (first + second) ≤ infOutbufSize)
    (hfirst : first ≤ distance - infbuf.ptr) (hcrosses : distance - infbuf.ptr < first + second)
    (hroom : first + second - (distance - infbuf.ptr) ≤ distance)
    (hcopy : copyLoop build (first + second - (distance - infbuf.ptr)) 0 (infOutbufWrite infbuf
      (ringBytes infbuf (infbuf.ptr + infOutbufSize - distance) (distance - infbuf.ptr))) =
        .ok (rest, infbuf')) :
    let front := ringBytes infbuf (infbuf.ptr + infOutbufSize - distance) first
    let back := ringBytes infbuf (infbuf.ptr + infOutbufSize - distance + first)
      (distance - infbuf.ptr - first) ++ rest
    infOutbufRead build infbuf distance first = .ok (true, front, infOutbufWrite infbuf front) ∧
      infOutbufRead build (infOutbufWrite infbuf front) distance second =
        .ok (true, back, infbuf') := by
  intro front back
  obtain ⟨hptr, hsame⟩ := @infOutbufWrite_fits infbuf front (by simp only [front, length_ringBytes]; omega)
  rw [length_ringBytes] at hptr hsame
  refine ⟨by rw [infOutbufRead_wrapped hwrapped hsize]; exact if_pos (by omega), ?_⟩
  have hcrossed := (@infOutbufWrite_fits infbuf
    (ringBytes infbuf (infbuf.ptr + infOutbufSize - distance) (distance - infbuf.ptr))
    (by rw [length_ringBytes]; omega)).1
  rw [length_ringBytes] at hcrossed
  by_cases hmore : infbuf.ptr + first < distance
  · have hplace : infbuf.ptr + first + infOutbufSize - distance =
        infbuf.ptr + infOutbufSize - distance + first := by omega
    have hleft : distance - (infbuf.ptr + first) = distance - infbuf.ptr - first := by omega
    have hwrite : infOutbufWrite (infOutbufWrite infbuf front)
        (ringBytes infbuf (infbuf.ptr + infOutbufSize - distance + first)
          (distance - infbuf.ptr - first)) =
        infOutbufWrite infbuf
          (ringBytes infbuf (infbuf.ptr + infOutbufSize - distance) (distance - infbuf.ptr)) := by
      rw [← infOutbufWrite_append, ← ringBytes_add, Nat.add_sub_cancel' hfirst]
    rw [infOutbufRead_wrapped (by rw [hptr]; exact hmore) hsize]
    simp only [hptr, hplace, hleft]
    rw [hsame _ (distance - infbuf.ptr - first) (by omega), hwrite, if_neg (by omega),
      if_neg (by omega),
      show second - (distance - infbuf.ptr - first) = first + second - (distance - infbuf.ptr) by
        omega, hcopy]
    rfl
  · have hall : first = distance - infbuf.ptr := by omega
    have hback : back = rest := by
      simp only [back, ← hall, Nat.sub_self]
      rfl
    rw [infOutbufRead_plain (by rw [hptr]; omega), hptr,
      show infbuf.ptr + first - distance = 0 by omega, hback]
    rw [← hall, Nat.add_sub_cancel_left] at hcopy
    rw [hcopy]
    rfl

/-- A read that succeeds may be cut anywhere. -/
theorem infOutbufRead_cut (hsize : distance ≤ infOutbufSize)
    (hfits : infbuf.ptr + (first + second) ≤ infOutbufSize)
    (hread : infOutbufRead build infbuf distance (first + second) = .ok (true, bytes, infbuf')) :
    ∃ front middle back, infOutbufRead build infbuf distance first = .ok (true, front, middle) ∧
      infOutbufRead build middle distance second = .ok (true, back, infbuf') ∧
      bytes = front ++ back := by
  by_cases hplain : distance ≤ infbuf.ptr
  · rw [infOutbufRead_plain hplain] at hread
    obtain ⟨result, hcopy, heq⟩ := map_ok hread
    cases heq
    obtain ⟨front, middle, back, hfront, hptr, hback, heq⟩ := copyLoop_cut (by omega) hcopy
    refine ⟨front, middle, back, ?_, ?_, heq⟩
    · rw [infOutbufRead_plain hplain, hfront]
      rfl
    · rw [infOutbufRead_plain (by omega), hptr,
        show infbuf.ptr + first - distance = infbuf.ptr - distance + first by omega, hback]
      rfl
  rw [not_le] at hplain
  rw [infOutbufRead_wrapped hplain hsize] at hread
  simp only at hread
  by_cases hall : first + second ≤ distance - infbuf.ptr
  · rw [if_pos hall] at hread
    cases hread
    obtain ⟨hfront, hback⟩ := @read_cut_front build infbuf _ _ _ hsize hplain hfits hall
    rw [ringBytes_add]
    exact ⟨_, _, _, hfront, hback, rfl⟩
  have hcrossed := (@infOutbufWrite_fits infbuf
    (ringBytes infbuf (infbuf.ptr + infOutbufSize - distance) (distance - infbuf.ptr))
    (by rw [length_ringBytes]; omega)).1
  rw [length_ringBytes] at hcrossed
  rw [if_neg hall] at hread
  split at hread
  · cases hread
  next hroom =>
  obtain ⟨rest, hcopy, heq⟩ := map_ok hread
  cases heq
  by_cases hfirst : first ≤ distance - infbuf.ptr
  · obtain ⟨hfront, hback⟩ := @read_cut_crossing build infbuf _ _ first second _ hsize hplain hfits
      hfirst (by omega) (by omega) hcopy
    refine ⟨_, _, _, hfront, hback, ?_⟩
    rw [← List.append_assoc, ← ringBytes_add, Nat.add_sub_cancel' hfirst]
  · rw [show first + second - (distance - infbuf.ptr) = first - (distance - infbuf.ptr) + second by
      omega] at hcopy
    obtain ⟨front, middle, back, hfront, hptr, hback, heq⟩ := copyLoop_cut (by omega) hcopy
    refine ⟨ringBytes infbuf (infbuf.ptr + infOutbufSize - distance) (distance - infbuf.ptr) ++ front,
      middle, back, ?_, ?_, by rw [heq, List.append_assoc]⟩
    · rw [infOutbufRead_wrapped hplain hsize]
      simp only
      rw [if_neg (by omega), if_neg (by omega), hfront]
      rfl
    · rw [infOutbufRead_plain (by omega),
        show middle.ptr - distance = 0 + (first - (distance - infbuf.ptr)) by omega, hback]
      rfl

end Cut

/-! ### Passes in two windows -/

/-- The numbers of the state are in range, whatever the free space. -/
def Ranged (st : InfCore) : Prop := InRange (controlOf ⟨st, [], 0⟩)

theorem ranged_iff {p : InfPass} : Ranged p.state ↔ InRange (controlOf p) :=
  ⟨fun h ↦ ⟨h.lengthSymbol, h.distanceSymbol, h.length, h.distance, h.ptr⟩,
    fun h ↦ ⟨h.lengthSymbol, h.distanceSymbol, h.length, h.distance, h.ptr⟩⟩

/-- A ring with room for some bytes in front of its end. -/
structure FitsRing (st : InfCore) (count : ℕ) : Prop where
  ranged : Ranged st
  room : st.outputBuf.ptr + count ≤ infOutbufSize

section Passes

variable {build : Build}

theorem FitsRing.advance {p : InfPass} {e : InfEffect} {count : ℕ}
    (hp : inflateStep build p = .ok e) (h : FitsRing p.state (e.stored.length + count)) :
    FitsRing e.pass.state count := by
  have hturn := turn_inflateStep hp
  have hrange := ranged_iff.mp h.ranged
  refine ⟨ranged_iff.mpr (hrange.turn hturn), ?_⟩
  have hbuf : e.pass.state.outputBuf = e.stored.foldl ringPut p.state.outputBuf :=
    hturn.outputBuf hrange.ptr
  have hptr := foldl_ringPut_ptr_le e.stored p.state.outputBuf
  have hroom := h.room
  rw [hbuf]
  omega

/-- What a cut pass goes on with: nothing of the window is left, and the wide pass does what the cut
one does behind what it has stored. -/
def CutAt (f : InfPass → Except Fault InfEffect) (p : InfPass) (extra : ℕ) (e' : InfEffect) : Prop :=
  f p = .ok e' ∧ e'.signal = .needOutput ∧ e'.pass.free = 0 ∧ e'.pass.state.step = p.state.step ∧
    f (p.widen extra) = reportAfter e'.stored (f (e'.pass.widen extra))

/-- A stored block goes on in the next window where it was cut. -/
theorem cut_outputUncompressedBlock {st : InfCore} {input : List UInt8} {free extra : ℕ}
    {e : InfEffect} (hp : passOutputUncompressedBlock build ⟨st, input, free + extra⟩ = .ok e) :
    (∃ e', passOutputUncompressedBlock build ⟨st, input, free⟩ = .ok e' ∧ e = e'.widen extra) ∨
      ∃ e', CutAt (passOutputUncompressedBlock build) ⟨st, input, free⟩ extra e' := by
  cases hassert : build.assert (st.size == 0) with
  | error fault =>
    rw [passOutputUncompressedBlock_eq, hassert] at hp
    cases hp
  | ok _ =>
    by_cases hfull : free < st.sequenceLen ∧ free ≤ input.length
    · -- the narrow pass fills its window and waits for the next one
      obtain ⟨hlen, hinput⟩ := hfull
      have hnarrow : min st.sequenceLen free = free := by omega
      have hwide : min st.sequenceLen (free + extra) = free + min (st.sequenceLen - free) extra := by
        omega
      have htake : (input.take free).length = free := List.length_take_of_le hinput
      have hrest : free + extra - (free + min (min (st.sequenceLen - free) extra)
          (input.length - free)) = extra - min (min (st.sequenceLen - free) extra)
          (input.length - free) := by omega
      refine .inr ⟨⟨⟨{ st with
        outputBuf := infOutbufWrite st.outputBuf (input.take free)
        sequenceLen := st.sequenceLen - free }, input.drop free, 0⟩, input.take free, .needOutput⟩,
        ?_, rfl, rfl, rfl, ?_⟩
      · simp only [passOutputUncompressedBlock_eq, hassert, hnarrow, htake, Nat.sub_self]
        rw [if_neg (by omega), if_pos hlen]
      · simp only [passOutputUncompressedBlock_eq, hassert, Pass.widen, hwide, List.take_add,
          infOutbufWrite_append, List.length_append, htake, List.length_drop, List.length_take,
          Nat.zero_add, List.drop_drop, Nat.sub_sub, hrest]
        by_cases hshort : input.length < free + min (st.sequenceLen - free) extra
        · rw [if_pos hshort, if_pos (by omega)]
          rfl
        · rw [if_neg hshort, if_neg (show ¬ input.length - free < _ by omega)]
          by_cases hlong : free + extra < st.sequenceLen
          · rw [if_pos hlong, if_pos (show extra < st.sequenceLen - free by omega)]
            rfl
          · rw [if_neg hlong, if_neg (show ¬ extra < st.sequenceLen - free by omega)]
            rfl
    · -- the narrow pass does not come to the end of its window
      obtain ⟨e', hp', hsignal⟩ : ∃ e', passOutputUncompressedBlock build ⟨st, input, free⟩ = .ok e' ∧
          e'.signal ≠ .needOutput := by
        simp only [passOutputUncompressedBlock_eq, hassert]
        by_cases hshort : input.length < min st.sequenceLen free
        · exact ⟨_, if_pos hshort, by simp⟩
        · exact ⟨_, (if_neg hshort).trans (if_neg (by omega)), by simp⟩
      refine .inl ⟨e', hp', ?_⟩
      rw [roomy_outputUncompressedBlock build st input free extra hp' hsignal] at hp
      injection hp with hp
      exact hp.symm

/-- So does a match. -/
theorem cut_outputSequence {st : InfCore} {input : List UInt8} {free extra : ℕ} {e : InfEffect}
    (hstep : st.step = .outputSequence) (hp : passOutputSequence build ⟨st, input, free + extra⟩ = .ok e)
    (hfits : FitsRing st e.stored.length) (hsound : ∀ msg, e.signal ≠ .halt (.dataError msg)) :
    (∃ e', passOutputSequence build ⟨st, input, free⟩ = .ok e' ∧ e = e'.widen extra) ∨
      ∃ e', CutAt (passOutputSequence build) ⟨st, input, free⟩ extra e' := by
  have hsize : st.sequenceDist ≤ infOutbufSize := (hfits.ranged.distance hstep).2
  have hptr : st.outputBuf.ptr ≤ infOutbufSize := hfits.ranged.ptr
  simp only [CutAt, passOutputSequence_eq, Pass.widen] at hp ⊢
  by_cases hall : st.sequenceLen ≤ free
  · have hwanted : min st.sequenceLen (free + extra) = min st.sequenceLen free := by omega
    rw [hwanted] at hp
    split at hp
    · cases hp
    · next hread =>
      split at hp
      · cases hp
        exact absurd rfl (hsound _)
      · next hsucc =>
        rw [if_pos (by omega)] at hp
        cases hp
        refine .inl ⟨_, by rw [if_neg hsucc, if_pos hall], ?_⟩
        simp only [Effect.widen, Pass.widen,
          show free + extra - min st.sequenceLen free = free - min st.sequenceLen free + extra by
            omega]
  · have hfree : min st.sequenceLen free = free := by omega
    have hwanted : min st.sequenceLen (free + extra) = free + min (st.sequenceLen - free) extra := by
      omega
    split at hp
    · cases hp
    · next succ bytes outputBuf hread =>
      split at hp
      · cases hp
        exact absurd rfl (hsound _)
      · next hsucc =>
        rw [Bool.not_eq_false] at hsucc
        subst hsucc
        have hlength := (infOutbufRead_length hptr hread).2 rfl
        have hroom := hfits.room
        have hstored : e.stored = bytes := by split at hp <;> cases hp <;> rfl
        rw [hstored, hlength, hwanted] at hroom
        have hread' := hread
        rw [hwanted] at hread'
        obtain ⟨front, middle, back, hfront, hback, hbytes⟩ := infOutbufRead_cut hsize hroom hread'
        refine .inr ⟨⟨⟨{ st with outputBuf := middle, sequenceLen := st.sequenceLen - free }, input, 0⟩,
          front, .needOutput⟩, ?_, rfl, rfl, rfl, ?_⟩
        · rw [hfree, hfront]
          simp only [Bool.true_eq_false, if_false, if_neg hall, Nat.sub_self]
        · have hleft : 0 + extra = extra := Nat.zero_add extra
          simp only [hleft, hback, Bool.true_eq_false, if_false]
          have hlen : st.sequenceLen - min st.sequenceLen (free + extra) =
              st.sequenceLen - free - min (st.sequenceLen - free) extra := by omega
          have hspace : free + extra - min st.sequenceLen (free + extra) =
              extra - min (st.sequenceLen - free) extra := by omega
          by_cases hfits' : st.sequenceLen ≤ free + extra
          · rw [if_pos hfits', if_pos (show st.sequenceLen - free ≤ extra by omega), hlen, hspace,
              hbytes]
            rfl
          · rw [if_neg hfits', if_neg (show ¬ st.sequenceLen - free ≤ extra by omega), hlen, hspace,
              hbytes]
            rfl

/-- And a literal, which waits for a window with free space. -/
theorem cut_readLiteralOrLength2 {st : InfCore} {input : List UInt8} {free extra : ℕ} {e : InfEffect}
    (hp : passReadLiteralOrLength2 build ⟨st, input, free + extra⟩ = .ok e) :
    (∃ e', passReadLiteralOrLength2 build ⟨st, input, free⟩ = .ok e' ∧ e = e'.widen extra) ∨
      ∃ e', CutAt (passReadLiteralOrLength2 build) ⟨st, input, free⟩ extra e' := by
  simp only [CutAt, passReadLiteralOrLength2_eq, Pass.widen] at hp ⊢
  by_cases hliteral : st.literal < 256
  · simp only [if_pos hliteral] at hp ⊢
    by_cases hfull : free = 0
    · subst hfull
      exact .inr ⟨_, if_pos rfl, rfl, rfl, rfl, by simp only [if_pos hliteral, reportAfter_nil]⟩
    · rw [if_neg (by omega)] at hp
      rw [if_neg hfull]
      split at hp
      · cases hp
      · cases hp
        refine .inl ⟨_, rfl, ?_⟩
        simp only [Effect.widen, Pass.widen, show free + extra - 1 = free - 1 + extra by omega]
  · rw [if_neg hliteral] at hp
    simp only [if_neg hliteral]
    by_cases hend : st.literal = 256
    · rw [if_pos hend] at hp
      cases hp
      exact .inl ⟨_, if_pos hend, rfl⟩
    · rw [if_neg hend] at hp
      by_cases hinvalid : 285 < st.literal
      · rw [if_pos hinvalid] at hp
        cases hp
        exact .inl ⟨_, (if_neg hend).trans (if_pos hinvalid), rfl⟩
      · rw [if_neg hinvalid] at hp
        cases hp
        exact .inl ⟨_, (if_neg hend).trans (if_neg hinvalid), rfl⟩

/-- Where the ring does not wrap, the inflater may be cut at the end of a window. -/
theorem divisible_inflateStep : Divisible (inflateStep build) FitsRing (· = .streamEnd) where
  mono st first second h := ⟨h.ranged, by have hroom := h.room; omega⟩
  advance p e count hp h := FitsRing.advance hp h
  cut := by
    rintro ⟨st, input, free⟩ extra e hp hfits hsignal hsound
    -- a cut pass of a step is a cut pass of the loop, which comes to the same step again
    have hlift : ∀ f, passOf build st.step = f →
        ((∃ e', f ⟨st, input, free⟩ = .ok e' ∧ e = e'.widen extra) ∨
          ∃ e', CutAt f ⟨st, input, free⟩ extra e') →
        (∃ e', inflateStep build ⟨st, input, free⟩ = .ok e' ∧ e = e'.widen extra) ∨
          ∃ e', inflateStep build ⟨st, input, free⟩ = .ok e' ∧ e'.signal = .needOutput ∧
            e'.pass.free = 0 ∧ inflateStep build (Pass.widen ⟨st, input, free⟩ extra) =
              reportAfter e'.stored (inflateStep build (e'.pass.widen extra)) := by
      rintro f rfl (⟨e', hp', he⟩ | ⟨e', hp', hfull, hfree, hsame, hcut⟩)
      · exact .inl ⟨e', (inflateStep_eq _ _).trans hp', he⟩
      · refine .inr ⟨e', (inflateStep_eq _ _).trans hp', hfull, hfree, ?_⟩
        rw [inflateStep_eq, inflateStep_eq, show (e'.pass.widen extra).state.step = st.step from hsame]
        exact hcut
    rw [inflateStep_eq] at hp
    by_cases hstores : st.step.stores = false
    · refine hlift _ rfl (.inl ?_)
      have hthrifty := thrifty_passOf build hstores ⟨st, input, free⟩ extra
      obtain ⟨e', hp', he⟩ := map_ok (hthrifty.symm.trans hp)
      exact ⟨e', hp', he.symm⟩
    cases hstep : st.step <;> simp only [hstep, InfStep.stores, not_true] at hstores
    case outputUncompressedBlock =>
      simp only [Pass.widen, hstep] at hp
      exact hlift _ (by rw [hstep]; rfl) (cut_outputUncompressedBlock hp)
    case readLiteralOrLength2 =>
      simp only [Pass.widen, hstep] at hp
      exact hlift _ (by rw [hstep]; rfl) (cut_readLiteralOrLength2 hp)
    case outputSequence =>
      simp only [Pass.widen, hstep] at hp
      exact hlift _ (by rw [hstep]; rfl) (cut_outputSequence hstep hp hfits fun msg hhalt ↦
        by cases hsound _ hhalt)

end Passes

end ZephyrThrift.Muzic
