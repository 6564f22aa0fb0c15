import ZephyrThrift.Foundation.DeflateFormat
import ZephyrThrift.Muzic.OutputWindow

/-!
# What the window ring holds

Every way of storing bytes in the ring is a repeated `ringPut`. As long as the ring has not wrapped
it holds the whole output so far (`Holds`), and a read at a distance copies from it byte by byte, its
own output included (`overlap`).
-/

set_option autoImplicit false
set_option relaxedAutoImplicit false

namespace ZephyrThrift.Muzic

open Foundation

/-! ### Writes -/

/-- One byte, with the lazy wrap of the write pointer. -/
def ringPut (infbuf : InfOutbuf) (c : UInt8) : InfOutbuf :=
  let ptr := if infOutbufSize ≤ infbuf.ptr then 0 else infbuf.ptr
  ⟨Function.update infbuf.ring ptr c, ptr + 1⟩

theorem infOutbufPutc_eq (build : Build) {infbuf : InfOutbuf} (h : infbuf.ptr ≤ infOutbufSize)
    (c : UInt8) : infOutbufPutc build infbuf c = .ok (ringPut infbuf c) := by
  simp only [infOutbufPutc, ringPut, h, decide_true, Build.assert_true]
  by_cases hend : infbuf.ptr = infOutbufSize
  · rw [if_pos hend, if_pos hend.ge]
  · rw [if_neg hend, if_neg (by omega)]

theorem ringPut_ptr_le (infbuf : InfOutbuf) (c : UInt8) :
    (ringPut infbuf c).ptr ≤ infOutbufSize := by
  simp only [ringPut]
  split
  · simp [infOutbufSize]
  · omega

theorem copyInto_nil (ring : ℕ → UInt8) (offset : ℕ) : copyInto ring offset [] = ring := by
  funext i
  rw [copyInto, if_neg (by simp)]

theorem copyInto_cons (ring : ℕ → UInt8) (offset : ℕ) (byte : UInt8) (bytes : List UInt8) :
    copyInto ring offset (byte :: bytes) =
      copyInto (Function.update ring offset byte) (offset + 1) bytes := by
  funext i
  simp only [copyInto, List.length_cons, Function.update_apply]
  by_cases hfirst : i = offset
  · subst hfirst
    rw [if_pos (by omega), if_neg (by omega), if_pos rfl, Nat.sub_self]
    rfl
  · by_cases hin : offset + 1 ≤ i ∧ i < offset + 1 + bytes.length
    · rw [if_pos (by omega), if_pos hin, show i - offset = i - (offset + 1) + 1 by omega]
      rfl
    · rw [if_neg (by omega), if_neg hin, if_neg hfirst]

/-- A write that does not wrap. -/
theorem foldl_ringPut_of_fits (bytes : List UInt8) :
    ∀ infbuf : InfOutbuf, bytes.length ≤ infOutbufSize - infbuf.ptr →
      bytes.foldl ringPut infbuf =
        ⟨copyInto infbuf.ring infbuf.ptr bytes, infbuf.ptr + bytes.length⟩ := by
  induction bytes with
  | nil => intro infbuf _; rw [List.foldl_nil, copyInto_nil]; rfl
  | cons byte bytes ih =>
    intro infbuf hfits
    rw [List.length_cons] at hfits
    have hput : ringPut infbuf byte =
        ⟨Function.update infbuf.ring infbuf.ptr byte, infbuf.ptr + 1⟩ := by
      simp only [ringPut]
      rw [if_neg (by omega)]
    rw [List.foldl_cons, hput, ih _ (by simp only; omega), copyInto_cons, List.length_cons]
    simp only [InfOutbuf.mk.injEq, true_and]
    omega

/-- At its end, the ring goes on as at its beginning. -/
theorem foldl_ringPut_wrap {ptr : ℕ} (h : infOutbufSize ≤ ptr) (ring : ℕ → UInt8)
    {bytes : List UInt8} (hbytes : bytes ≠ []) :
    bytes.foldl ringPut ⟨ring, ptr⟩ = bytes.foldl ringPut ⟨ring, 0⟩ := by
  cases bytes with
  | nil => exact absurd rfl hbytes
  | cons byte bytes =>
    rw [List.foldl_cons, List.foldl_cons]
    congr 1
    simp only [ringPut, if_pos h]
    rw [if_neg (by simp [infOutbufSize])]

theorem writeLoop_step (fuel : ℕ) (infbuf : InfOutbuf) (bytes : List UInt8)
    (hnext : ∀ ring rest, rest.length ≤ bytes.length - (infOutbufSize - infbuf.ptr) →
      writeLoop fuel ⟨ring, 0⟩ rest = rest.foldl ringPut ⟨ring, 0⟩) :
    writeLoop (fuel + 1) infbuf bytes = bytes.foldl ringPut infbuf := by
  rw [writeLoop]
  by_cases hwrap : infOutbufSize - infbuf.ptr < bytes.length
  · have htake : (bytes.take (infOutbufSize - infbuf.ptr)).length = infOutbufSize - infbuf.ptr := by
      rw [List.length_take, min_eq_left hwrap.le]
    have hdrop : bytes.drop (infOutbufSize - infbuf.ptr) ≠ [] := by
      intro hnil
      have := congrArg List.length hnil
      rw [List.length_drop, List.length_nil] at this
      omega
    rw [if_pos hwrap, hnext _ _ (by rw [List.length_drop])]
    conv_rhs => rw [← List.take_append_drop (infOutbufSize - infbuf.ptr) bytes, List.foldl_append]
    rw [foldl_ringPut_of_fits _ _ htake.le, htake]
    have hend : infOutbufSize ≤ infbuf.ptr + (infOutbufSize - infbuf.ptr) := by omega
    exact (foldl_ringPut_wrap hend _ hdrop).symm
  · rw [if_neg hwrap, foldl_ringPut_of_fits _ _ (not_lt.mp hwrap)]

theorem writeLoop_zero_eq (fuel : ℕ) : ∀ (ring : ℕ → UInt8) (bytes : List UInt8),
    bytes.length < fuel → writeLoop fuel ⟨ring, 0⟩ bytes = bytes.foldl ringPut ⟨ring, 0⟩ := by
  induction fuel with
  | zero => intro ring bytes h; exact absurd h (Nat.not_lt_zero _)
  | succ fuel ih =>
    intro ring bytes hfuel
    by_cases hwrap : infOutbufSize < bytes.length
    · refine writeLoop_step fuel _ _ fun ring rest hrest ↦ ih ring rest ?_
      simp only [infOutbufSize] at hwrap hrest
      omega
    · rw [writeLoop, if_neg (by simpa using hwrap), foldl_ringPut_of_fits _ _ (by simp; omega)]

/-- `infOutbufWrite` stores the bytes one after the other. -/
theorem infOutbufWrite_eq (infbuf : InfOutbuf) (bytes : List UInt8) :
    infOutbufWrite infbuf bytes = bytes.foldl ringPut infbuf :=
  writeLoop_step _ infbuf bytes fun ring rest hrest ↦ writeLoop_zero_eq _ ring rest (by omega)

theorem infOutbufWrite_append (infbuf : InfOutbuf) (first second : List UInt8) :
    infOutbufWrite infbuf (first ++ second) =
      infOutbufWrite (infOutbufWrite infbuf first) second := by
  rw [infOutbufWrite_eq, infOutbufWrite_eq, infOutbufWrite_eq, List.foldl_append]

theorem infOutbufWrite_ptr_le {infbuf : InfOutbuf} (h : infbuf.ptr ≤ infOutbufSize)
    (bytes : List UInt8) : (infOutbufWrite infbuf bytes).ptr ≤ infOutbufSize := by
  rw [infOutbufWrite_eq]
  induction bytes generalizing infbuf with
  | nil => exact h
  | cons byte bytes ih => exact ih (ringPut_ptr_le infbuf byte)

/-! ### The history in the ring -/

/-- The ring holds the output so far, and has not wrapped. -/
structure Holds (infbuf : InfOutbuf) (history : List UInt8) : Prop where
  ptr : infbuf.ptr = history.length
  fits : history.length ≤ infOutbufSize
  ring : ∀ i, i < history.length → infbuf.ring i = history.getD i 0

theorem holds_nil (ring : ℕ → UInt8) : Holds ⟨ring, 0⟩ [] :=
  ⟨rfl, Nat.zero_le _, fun i h ↦ absurd h (Nat.not_lt_zero i)⟩

theorem Holds.put {infbuf : InfOutbuf} {history : List UInt8} (h : Holds infbuf history)
    (hroom : history.length < infOutbufSize) (c : UInt8) :
    Holds (ringPut infbuf c) (history ++ [c]) := by
  have hput : ringPut infbuf c =
      ⟨Function.update infbuf.ring history.length c, history.length + 1⟩ := by
    rw [ringPut, h.ptr, if_neg (by omega)]
  rw [hput]
  refine ⟨by rw [List.length_append, List.length_singleton], by simpa using hroom, ?_⟩
  · intro i hi
    rw [List.length_append, List.length_singleton] at hi
    simp only [Function.update_apply]
    by_cases hlast : i = history.length
    · rw [if_pos hlast, hlast, List.getD_append_right _ _ _ _ le_rfl, Nat.sub_self]
      rfl
    · rw [if_neg hlast, List.getD_append _ _ _ _ (by omega), h.ring i (by omega)]

theorem Holds.write {infbuf : InfOutbuf} {history : List UInt8} (bytes : List UInt8)
    (h : Holds infbuf history) (hroom : (history ++ bytes).length ≤ infOutbufSize) :
    Holds (infOutbufWrite infbuf bytes) (history ++ bytes) := by
  rw [infOutbufWrite_eq]
  induction bytes generalizing infbuf history with
  | nil => simpa using h
  | cons byte bytes ih =>
    have hput := h.put (by rw [List.length_append, List.length_cons] at hroom; omega) byte
    have hrest := ih hput (by simpa using hroom)
    simpa using hrest

/-- The copy loop reads behind what it has just written at a positive distance. -/
theorem copyLoop_spec (build : Build) {distance : ℕ} (hpos : 0 < distance) (count : ℕ) :
    ∀ {infbuf : InfOutbuf} {history : List UInt8}, Holds infbuf history →
      distance ≤ history.length → history.length + count ≤ infOutbufSize →
        ∃ infbuf', copyLoop build count (history.length - distance) infbuf =
            .ok (overlap distance history count, infbuf') ∧
          Holds infbuf' (history ++ overlap distance history count) := by
  induction count with
  | zero => intro infbuf history h _ _; exact ⟨infbuf, rfl, by simpa [overlap] using h⟩
  | succ count ih =>
    intro infbuf history h hdistance hroom
    have hsource : history.length - distance < infOutbufSize := by omega
    have hput := h.put (by omega) (history.getD (history.length - distance) 0)
    obtain ⟨infbuf', hrest, hholds⟩ := ih hput (by rw [List.length_append]; omega)
      (by rw [List.length_append, List.length_singleton]; omega)
    refine ⟨infbuf', ?_, by simpa [overlap] using hholds⟩
    have hread : readRing build infbuf (history.length - distance) =
        .ok (history.getD (history.length - distance) 0) := by
      rw [readRing, if_pos hsource, h.ring _ (by omega)]
    have hagain : readRing build (ringPut infbuf (history.getD (history.length - distance) 0))
        (history.length - distance) = .ok (history.getD (history.length - distance) 0) := by
      rw [readRing, if_pos hsource, hput.ring _ (by rw [List.length_append]; omega),
        List.getD_append _ _ _ _ (by omega)]
    have hoffset : (history ++ [history.getD (history.length - distance) 0]).length - distance =
        history.length - distance + 1 := by
      rw [List.length_append, List.length_singleton]
      omega
    rw [hoffset] at hrest
    simp only [copyLoop, hread, infOutbufPutc_eq build (h.ptr ▸ h.fits), hagain, hrest, bind,
      Except.bind, pure, Except.pure, overlap]

/-- A read within the output so far yields the match, and stores it. -/
theorem infOutbufRead_spec (build : Build) {infbuf : InfOutbuf} {history : List UInt8}
    {distance : ℕ} (h : Holds infbuf history) (hpos : 0 < distance)
    (hdistance : distance ≤ history.length) {count : ℕ}
    (hroom : history.length + count ≤ infOutbufSize) :
    ∃ infbuf', infOutbufRead build infbuf distance count =
        .ok (true, overlap distance history count, infbuf') ∧
      Holds infbuf' (history ++ overlap distance history count) := by
  obtain ⟨infbuf', hcopy, hholds⟩ := copyLoop_spec build hpos count h hdistance hroom
  refine ⟨infbuf', ?_, hholds⟩
  rw [infOutbufRead, if_neg (by rw [h.ptr]; omega), h.ptr, hcopy]

/-! ### Reads in pieces -/

theorem copyLoop_ptr_le {build : Build} (count : ℕ) :
    ∀ {sequencePtr : ℕ} {infbuf infbuf' : InfOutbuf} {bytes : List UInt8},
      infbuf.ptr ≤ infOutbufSize → copyLoop build count sequencePtr infbuf = .ok (bytes, infbuf') →
        bytes.length = count ∧ infbuf'.ptr ≤ infOutbufSize := by
  induction count with
  | zero => intro sequencePtr infbuf infbuf' bytes h hcopy; cases hcopy; exact ⟨rfl, h⟩
  | succ count ih =>
    intro sequencePtr infbuf infbuf' bytes h hcopy
    simp only [copyLoop, bind, Except.bind, infOutbufPutc_eq build h] at hcopy
    split at hcopy
    · cases hcopy
    split at hcopy
    · cases hcopy
    split at hcopy
    · cases hcopy
    next rest hrest =>
      obtain ⟨hlength, hptr⟩ := ih (ringPut_ptr_le _ _) hrest
      cases hcopy
      exact ⟨by rw [List.length_cons, hlength], hptr⟩

theorem copyLoop_add (build : Build) (first second : ℕ) :
    ∀ (sequencePtr : ℕ) (infbuf : InfOutbuf),
      copyLoop build (first + second) sequencePtr infbuf =
        match copyLoop build first sequencePtr infbuf with
        | .error fault => .error fault
        | .ok (bytes, infbuf') =>
          match copyLoop build second (sequencePtr + first) infbuf' with
          | .error fault => .error fault
          | .ok (rest, infbuf'') => .ok (bytes ++ rest, infbuf'') := by
  induction first with
  | zero =>
    intro sequencePtr infbuf
    simp only [Nat.zero_add, Nat.add_zero, copyLoop, List.nil_append]
    split <;> simp_all
  | succ first ih =>
    intro sequencePtr infbuf
    rw [Nat.add_right_comm]
    simp only [copyLoop, bind, Except.bind]
    split
    · rfl
    split
    · rfl
    split
    · rfl
    rw [ih, show sequencePtr + 1 + first = sequencePtr + (first + 1) by omega]
    cases copyLoop build first (sequencePtr + 1) _ with
    | error fault => rfl
    | ok result =>
      simp only [pure, Except.pure]
      cases copyLoop build second (sequencePtr + (first + 1)) result.2 <;> rfl

/-- A copy within the ring cannot fail. -/
theorem copyLoop_total (build : Build) (count : ℕ) :
    ∀ (sequencePtr : ℕ) {infbuf : InfOutbuf}, infbuf.ptr ≤ infOutbufSize →
      sequencePtr + count ≤ infOutbufSize →
        ∃ result, copyLoop build count sequencePtr infbuf = .ok result := by
  induction count with
  | zero => intro sequencePtr infbuf _ _; exact ⟨_, rfl⟩
  | succ count ih =>
    intro sequencePtr infbuf h hroom
    have hread : ∀ infbuf : InfOutbuf, readRing build infbuf sequencePtr =
        .ok (infbuf.ring sequencePtr) := fun infbuf ↦ by rw [readRing, if_pos (by omega)]
    obtain ⟨result, hrest⟩ := ih (sequencePtr + 1)
      (ringPut_ptr_le infbuf (infbuf.ring sequencePtr)) (by omega)
    exact ⟨_, by simp only [copyLoop, hread, infOutbufPutc_eq build h, hrest, bind, Except.bind]; rfl⟩

/-- A read that fails for some bytes fails for more. -/
theorem infOutbufRead_fault_mono {build : Build} {infbuf : InfOutbuf} {distance count : ℕ}
    {fault : Fault} (h : infbuf.ptr ≤ infOutbufSize) (extra : ℕ)
    (hread : infOutbufRead build infbuf distance count = .error fault) :
    infOutbufRead build infbuf distance (count + extra) = .error fault := by
  rw [infOutbufRead] at hread ⊢
  split at hread
  · next hwrapped =>
    rw [if_pos hwrapped]
    split at hread
    · next hfar => rw [if_pos hfar]; exact hread
    simp only at hread
    split at hread
    · cases hread
    split at hread
    · cases hread
    next hwithin =>
    have hptr := infOutbufWrite_ptr_le h (ringBytes infbuf (infbuf.ptr + infOutbufSize - distance)
      (infOutbufSize - (infbuf.ptr + infOutbufSize - distance)))
    obtain ⟨result, htotal⟩ := copyLoop_total build
      (count - (infOutbufSize - (infbuf.ptr + infOutbufSize - distance))) 0 hptr
      (by omega)
    rw [htotal] at hread
    cases hread
  · next hplain =>
    rw [if_neg hplain, copyLoop_add]
    rcases hcopy : copyLoop build count (infbuf.ptr - distance) infbuf with fault' | result
    · rw [hcopy] at hread
      exact hread
    · rw [hcopy] at hread
      cases hread

end ZephyrThrift.Muzic
