import ZephyrThrift.Muzic.SymlenList

/-!
# Every reader can be suspended

A reader that runs out of input has loaded all of it into the bit buffer, and going on with more
input is the same as having had that input from the start. The law is proved once for each reader:
`InfBS.Suspendable` for the readers of the bit buffer, `ListSuspendable` for those that also fill the
symbol-length list.
-/

set_option autoImplicit false
set_option relaxedAutoImplicit false

namespace ZephyrThrift.Muzic

/-! ### Readers -/

namespace InfBS

/-- The same buffer in front of other input. -/
def facing (bitstream : InfBS) (input : List UInt8) : InfBS := { bitstream with input := input }

@[simp] theorem facing_facing (bitstream : InfBS) (first second : List UInt8) :
    (bitstream.facing first).facing second = bitstream.facing second := rfl

@[simp] theorem facing_bits (bitstream : InfBS) (input : List UInt8) :
    (bitstream.facing input).bits = bitstream.bits := rfl

@[simp] theorem facing_size (bitstream : InfBS) (input : List UInt8) :
    (bitstream.facing input).size = bitstream.size := rfl

@[simp] theorem facing_input (bitstream : InfBS) (input : List UInt8) :
    (bitstream.facing input).input = input := rfl

/-- A reader that is settled by the input it consumes, and whose failure loads all input into the
buffer without losing a bit. -/
structure Suspendable {α : Type} (read : InfBS → Except Fault (Option α × InfBS)) : Prop where
  fault : ∀ bitstream fault more, read bitstream = .error fault →
    read (bitstream.facing (bitstream.input ++ more)) = .error fault
  settle : ∀ bitstream value after, read bitstream = .ok (some value, after) →
    ∃ used, bitstream.input = used ++ after.input ∧
      ∀ rest, read (bitstream.facing (used ++ rest)) = .ok (some value, after.facing rest)
  suspend : ∀ bitstream after more, read bitstream = .ok (none, after) →
    after.input = [] ∧
      read (bitstream.facing (bitstream.input ++ more)) = read (after.facing more)

theorem loadUpTo_fault {count : ℕ} {fault : Fault} (more input : List UInt8) :
    ∀ bits size, loadUpTo count bits size input = .error fault →
      loadUpTo count bits size (input ++ more) = .error fault := by
  induction input with
  | nil => intro bits size h; cases h
  | cons byte rest ih =>
    intro bits size h
    rw [loadUpTo] at h
    rw [List.cons_append, loadUpTo]
    split at h
    · next hlt =>
      rw [if_pos hlt]
      cases hload : loadByte bits size byte with
      | error fault' => rw [hload] at h; exact h
      | ok bits' => rw [hload] at h; exact ih _ _ h
    · cases h

theorem loadUpTo_of_le {count size : ℕ} (h : count ≤ size) (bits : ℕ) (input : List UInt8) :
    loadUpTo count bits size input = .ok (true, ⟨bits, size, input⟩) := by
  cases input with
  | nil => rw [loadUpTo, decide_eq_true h]
  | cons byte rest => rw [loadUpTo, if_neg (not_lt.mpr h)]

theorem loadUpTo_settle {count : ℕ} {after : InfBS} (input : List UInt8) :
    ∀ bits size, loadUpTo count bits size input = .ok (true, after) →
      ∃ used, input = used ++ after.input ∧
        ∀ rest, loadUpTo count bits size (used ++ rest) = .ok (true, after.facing rest) := by
  induction input with
  | nil =>
    intro bits size h
    rw [loadUpTo] at h
    injection h with h
    injection h with hle hafter
    subst hafter
    exact ⟨[], rfl, fun rest ↦ loadUpTo_of_le (of_decide_eq_true hle) bits rest⟩
  | cons byte input ih =>
    intro bits size h
    rw [loadUpTo] at h
    split at h
    · next hlt =>
      cases hload : loadByte bits size byte with
      | error fault' => rw [hload] at h; cases h
      | ok bits' =>
        rw [hload] at h
        obtain ⟨used, hused, hsame⟩ := ih _ _ h
        refine ⟨byte :: used, by rw [hused, List.cons_append], fun rest ↦ ?_⟩
        rw [List.cons_append, loadUpTo, if_pos hlt, hload]
        exact hsame rest
    · next hge =>
      injection h with h
      injection h with _ hafter
      subst hafter
      exact ⟨[], rfl, fun rest ↦ loadUpTo_of_le (not_lt.mp hge) bits rest⟩

theorem loadUpTo_suspend {count : ℕ} {after : InfBS} (more input : List UInt8) :
    ∀ bits size, loadUpTo count bits size input = .ok (false, after) →
      after.input = [] ∧ after.size % 8 = size % 8 ∧
        loadUpTo count bits size (input ++ more) = loadUpTo count after.bits after.size more := by
  induction input with
  | nil =>
    intro bits size h
    rw [loadUpTo] at h
    injection h with h
    injection h with _ hafter
    subst hafter
    exact ⟨rfl, rfl, rfl⟩
  | cons byte input ih =>
    intro bits size h
    rw [loadUpTo] at h
    split at h
    · next hlt =>
      cases hload : loadByte bits size byte with
      | error fault' => rw [hload] at h; cases h
      | ok bits' =>
        rw [hload] at h
        obtain ⟨hinput, hsize, hsame⟩ := ih _ _ h
        refine ⟨hinput, by omega, ?_⟩
        rw [List.cons_append, loadUpTo, if_pos hlt, hload]
        exact hsame
    · injection h with h
      injection h with hfalse _
      cases hfalse

theorem suspendable_readBits (count : ℕ) : Suspendable (readBits count) where
  fault bitstream fault more h := by
    simp only [readBits] at h ⊢
    split at h
    · next fault' hload =>
      injection h with h
      subst h
      simp only [facing_bits, facing_size, facing_input, loadUpTo_fault more _ _ _ hload]
    · cases h
    · cases h
  settle bitstream value after h := by
    simp only [readBits] at h
    split at h
    · cases h
    · cases h
    · next loaded hload =>
      obtain ⟨used, hused, hsame⟩ := loadUpTo_settle _ _ _ hload
      injection h with h
      injection h with hvalue hafter
      subst hafter
      refine ⟨used, hused, fun rest ↦ ?_⟩
      simp only [readBits, facing_bits, facing_size, facing_input, hsame, ← hvalue]
      rfl
  suspend bitstream after more h := by
    simp only [readBits] at h
    split at h
    · cases h
    · next loaded hload =>
      obtain ⟨hinput, _, hsame⟩ := loadUpTo_suspend more _ _ _ hload
      injection h with h
      injection h with _ hafter
      subst hafter
      refine ⟨hinput, ?_⟩
      simp only [readBits, facing_bits, facing_size, facing_input, hsame]
    · cases h

theorem suspendable_readDWord (build : Build) : Suspendable (readDWord build) where
  fault bitstream fault more h := by
    simp only [readDWord] at h ⊢
    split at h
    · next fault' hload =>
      injection h with h
      subst h
      simp only [facing_bits, facing_size, facing_input, loadUpTo_fault more _ _ _ hload]
    · cases h
    · next loaded hload =>
      obtain ⟨used, hused, hsame⟩ := loadUpTo_settle _ _ _ hload
      rw [hused]
      simp only [facing_bits, facing_size, facing_input, List.append_assoc, hsame]
      split at h
      · next hassert => simpa only [hassert] using h
      · cases h
  settle bitstream value after h := by
    simp only [readDWord] at h
    split at h
    · cases h
    · cases h
    · next loaded hload =>
      obtain ⟨used, hused, hsame⟩ := loadUpTo_settle _ _ _ hload
      split at h
      · cases h
      · next hassert =>
        injection h with h
        injection h with hvalue hafter
        subst hafter
        refine ⟨used, hused, fun rest ↦ ?_⟩
        simp only [readDWord, facing_bits, facing_size, facing_input, hsame, hassert, ← hvalue]
        rfl
  suspend bitstream after more h := by
    simp only [readDWord] at h
    split at h
    · cases h
    · next loaded hload =>
      obtain ⟨hinput, hsize, hsame⟩ := loadUpTo_suspend more _ _ _ hload
      injection h with h
      injection h with _ hafter
      subst hafter
      refine ⟨hinput, ?_⟩
      have haligned : loaded.size % 8 = 0 := by omega
      simp only [readDWord, facing_bits, facing_size, facing_input, hsame, haligned,
        Nat.shiftRight_zero, Nat.sub_zero]
    · next loaded hload =>
      split at h <;> cases h

/-- What the loop does once the entry is known, whether or not input is left. -/
theorem readEncodedLoop_eq (decoder : HuffTable) (bits size : ℕ) (input : List UInt8) :
    readEncodedLoop decoder bits size input =
      match infHuffDecode decoder bits with
      | .error fault => .error fault
      | .ok data =>
        if size < data.length then
          match input with
          | [] => .ok (none, ⟨bits, size, []⟩)
          | byte :: rest =>
            match loadByte bits size byte with
            | .error fault => .error fault
            | .ok bits => readEncodedLoop decoder bits (size + 8) rest
        else takeCode data ⟨bits, size, input⟩ := by
  cases input with
  | nil => rfl
  | cons byte rest => rfl

theorem takeCode_fault {data : InfHuff} {bits size : ℕ} {first : List UInt8} {fault : Fault}
    (second : List UInt8) (h : takeCode data ⟨bits, size, first⟩ = .error fault) :
    takeCode data ⟨bits, size, second⟩ = .error fault := by
  simp only [takeCode] at h ⊢
  split at h
  · exact h
  · cases h

theorem takeCode_settle {data : InfHuff} {bits size value : ℕ} {input : List UInt8}
    {after : InfBS} (h : takeCode data ⟨bits, size, input⟩ = .ok (some value, after)) :
    input = after.input ∧
      ∀ rest, takeCode data ⟨bits, size, rest⟩ = .ok (some value, after.facing rest) := by
  simp only [takeCode] at h
  split at h
  · cases h
  · next hdrop =>
    injection h with h
    injection h with hvalue hafter
    subst hafter
    refine ⟨rfl, fun rest ↦ ?_⟩
    simp only [takeCode, hdrop, hvalue]
    rfl

theorem takeCode_ne_none {data : InfHuff} {bitstream after : InfBS} :
    takeCode data bitstream ≠ .ok (none, after) := by
  simp only [takeCode]
  split <;> simp

theorem readEncodedLoop_fault {decoder : HuffTable} {fault : Fault} (more input : List UInt8) :
    ∀ bits size, readEncodedLoop decoder bits size input = .error fault →
      readEncodedLoop decoder bits size (input ++ more) = .error fault := by
  induction input with
  | nil =>
    intro bits size h
    rw [readEncodedLoop_eq] at h ⊢
    cases hdecode : infHuffDecode decoder bits with
    | error fault' => rw [hdecode] at h; exact h
    | ok data =>
      simp only [hdecode] at h ⊢
      split at h
      · cases h
      · next hge => rw [if_neg hge]; exact takeCode_fault _ h
  | cons byte input ih =>
    intro bits size h
    rw [readEncodedLoop_eq] at h ⊢
    cases hdecode : infHuffDecode decoder bits with
    | error fault' => rw [hdecode] at h; exact h
    | ok data =>
      simp only [hdecode, List.cons_append] at h ⊢
      split at h
      · next hlt =>
        rw [if_pos hlt]
        cases hload : loadByte bits size byte with
        | error fault' => rw [hload] at h; exact h
        | ok bits' => rw [hload] at h; exact ih _ _ h
      · next hge => rw [if_neg hge]; exact takeCode_fault _ h

theorem readEncodedLoop_settle {decoder : HuffTable} {value : ℕ} {after : InfBS}
    (input : List UInt8) :
    ∀ bits size, readEncodedLoop decoder bits size input = .ok (some value, after) →
      ∃ used, input = used ++ after.input ∧ ∀ rest,
        readEncodedLoop decoder bits size (used ++ rest) = .ok (some value, after.facing rest) := by
  induction input with
  | nil =>
    intro bits size h
    rw [readEncodedLoop_eq] at h
    cases hdecode : infHuffDecode decoder bits with
    | error fault' => rw [hdecode] at h; cases h
    | ok data =>
      simp only [hdecode] at h
      split at h
      · cases h
      · next hge =>
        obtain ⟨hinput, hsame⟩ := takeCode_settle h
        refine ⟨[], hinput, fun rest ↦ ?_⟩
        rw [List.nil_append, readEncodedLoop_eq, hdecode]
        simp only [if_neg hge, hsame]
  | cons byte input ih =>
    intro bits size h
    rw [readEncodedLoop_eq] at h
    cases hdecode : infHuffDecode decoder bits with
    | error fault' => rw [hdecode] at h; cases h
    | ok data =>
      simp only [hdecode] at h
      split at h
      · next hlt =>
        cases hload : loadByte bits size byte with
        | error fault' => rw [hload] at h; cases h
        | ok bits' =>
          rw [hload] at h
          obtain ⟨used, hused, hsame⟩ := ih _ _ h
          refine ⟨byte :: used, by rw [hused, List.cons_append], fun rest ↦ ?_⟩
          rw [List.cons_append, readEncodedLoop_eq, hdecode]
          simp only [if_pos hlt, hload, hsame]
      · next hge =>
        obtain ⟨hinput, hsame⟩ := takeCode_settle h
        refine ⟨[], hinput, fun rest ↦ ?_⟩
        rw [List.nil_append, readEncodedLoop_eq, hdecode]
        simp only [if_neg hge, hsame]

theorem readEncodedLoop_suspend {decoder : HuffTable} {after : InfBS} (more input : List UInt8) :
    ∀ bits size, readEncodedLoop decoder bits size input = .ok (none, after) →
      after.input = [] ∧ size ≤ after.size ∧
        readEncodedLoop decoder bits size (input ++ more) =
          readEncodedLoop decoder after.bits after.size more := by
  induction input with
  | nil =>
    intro bits size h
    rw [readEncodedLoop_eq] at h
    cases hdecode : infHuffDecode decoder bits with
    | error fault' => rw [hdecode] at h; cases h
    | ok data =>
      simp only [hdecode] at h
      split at h
      · injection h with h
        injection h with _ hafter
        subst hafter
        exact ⟨rfl, le_rfl, rfl⟩
      · exact absurd h takeCode_ne_none
  | cons byte input ih =>
    intro bits size h
    rw [readEncodedLoop_eq] at h
    cases hdecode : infHuffDecode decoder bits with
    | error fault' => rw [hdecode] at h; cases h
    | ok data =>
      simp only [hdecode] at h
      split at h
      · next hlt =>
        cases hload : loadByte bits size byte with
        | error fault' => rw [hload] at h; cases h
        | ok bits' =>
          rw [hload] at h
          obtain ⟨hinput, hsize, hsame⟩ := ih _ _ h
          refine ⟨hinput, by omega, ?_⟩
          rw [List.cons_append, readEncodedLoop_eq, hdecode]
          simp only [if_pos hlt, hload, hsame]
      · exact absurd h takeCode_ne_none

/-- Where bits or input are left, `readEncodedBits` enters its loop. -/
theorem readEncodedBits_of_size {decoder : HuffTable} (bitstream : InfBS)
    (h : bitstream.size ≠ 0) :
    readEncodedBits decoder bitstream =
      readEncodedLoop decoder bitstream.bits bitstream.size bitstream.input := by
  rw [readEncodedBits, if_neg h]

theorem suspendable_readEncodedBits (decoder : HuffTable) :
    Suspendable (readEncodedBits decoder) where
  fault bitstream fault more h := by
    obtain ⟨bits, size, input⟩ := bitstream
    simp only [readEncodedBits, facing] at h ⊢
    by_cases hsize : size = 0
    · simp only [hsize, if_true] at h ⊢
      cases input with
      | nil => cases h
      | cons byte input =>
        cases hload : loadByte bits 0 byte with
        | error fault' => simpa only [List.cons_append, hload] using h
        | ok bits' =>
          simp only [hload, List.cons_append] at h ⊢
          exact readEncodedLoop_fault more _ _ _ h
    · simp only [hsize, if_false] at h ⊢
      exact readEncodedLoop_fault more _ _ _ h
  settle bitstream value after h := by
    obtain ⟨bits, size, input⟩ := bitstream
    simp only [readEncodedBits] at h
    by_cases hsize : size = 0
    · simp only [hsize, if_true] at h
      cases input with
      | nil => cases h
      | cons byte input =>
        cases hload : loadByte bits 0 byte with
        | error fault' => simp only [hload] at h; cases h
        | ok bits' =>
          simp only [hload] at h
          obtain ⟨used, hused, hsame⟩ := readEncodedLoop_settle _ _ _ h
          refine ⟨byte :: used, by simp only [hused, List.cons_append], fun rest ↦ ?_⟩
          simp only [readEncodedBits, facing, hsize, if_true, List.cons_append, hload]
          exact hsame rest
    · simp only [hsize, if_false] at h
      obtain ⟨used, hused, hsame⟩ := readEncodedLoop_settle _ _ _ h
      refine ⟨used, hused, fun rest ↦ ?_⟩
      simp only [readEncodedBits, facing, hsize, if_false]
      exact hsame rest
  suspend bitstream after more h := by
    obtain ⟨bits, size, input⟩ := bitstream
    simp only [readEncodedBits] at h
    by_cases hsize : size = 0
    · simp only [hsize, if_true] at h
      cases input with
      | nil =>
        injection h with h
        injection h with _ hafter
        subst hafter
        exact ⟨rfl, by simp only [facing, hsize, List.nil_append]⟩
      | cons byte input =>
        cases hload : loadByte bits 0 byte with
        | error fault' => simp only [hload] at h; cases h
        | ok bits' =>
          simp only [hload] at h
          obtain ⟨hinput, hgrown, hsame⟩ := readEncodedLoop_suspend more _ _ _ h
          refine ⟨hinput, ?_⟩
          rw [readEncodedBits_of_size (after.facing more)
            (by simp only [facing_size]; omega)]
          simp only [readEncodedBits, facing, hsize, if_true, List.cons_append, hload]
          exact hsame
    · simp only [hsize, if_false] at h
      obtain ⟨hinput, hgrown, hsame⟩ := readEncodedLoop_suspend more _ _ _ h
      refine ⟨hinput, ?_⟩
      rw [readEncodedBits_of_size (after.facing more)
        (by simp only [facing_size]; omega)]
      simp only [readEncodedBits, facing, hsize, if_false]
      exact hsame

end InfBS

/-! ### Readers that fill the symbol-length list -/

/-- The law of `InfBS.Suspendable` for a reader whose partial progress is also kept in the list. -/
structure ListSuspendable (read : InfSLList → InfBS → Except Fault (Bool × InfSLList × InfBS)) :
    Prop where
  fault : ∀ list bitstream fault more, read list bitstream = .error fault →
    read list (bitstream.facing (bitstream.input ++ more)) = .error fault
  settle : ∀ list bitstream list' after, read list bitstream = .ok (true, list', after) →
    ∃ used, bitstream.input = used ++ after.input ∧
      ∀ rest, read list (bitstream.facing (used ++ rest)) = .ok (true, list', after.facing rest)
  suspend : ∀ list bitstream list' after more, read list bitstream = .ok (false, list', after) →
    after.input = [] ∧
      read list (bitstream.facing (bitstream.input ++ more)) = read list' (after.facing more)

section ReadThreeBits

theorem read3BitLengths_fault {fault : Fault} (more : List UInt8) (count : ℕ) :
    ∀ list bitstream, read3BitLengths list bitstream count = .error fault →
      read3BitLengths list (bitstream.facing (bitstream.input ++ more)) count = .error fault := by
  induction count with
  | zero => intro list bitstream h; cases h
  | succ count ih =>
    intro list bitstream h
    rw [read3BitLengths] at h ⊢
    split at h
    · next fault' hread =>
      rw [(InfBS.suspendable_readBits 3).fault _ _ more hread]
      exact h
    · cases h
    · next length after hread =>
      obtain ⟨used, hused, hsame⟩ := (InfBS.suspendable_readBits 3).settle _ _ _ hread
      rw [hused, List.append_assoc, hsame]
      exact ih _ _ h

theorem read3BitLengths_settle {list' : InfSLList} {after : InfBS} (count : ℕ) :
    ∀ list bitstream, read3BitLengths list bitstream count = .ok (true, list', after) →
      ∃ used, bitstream.input = used ++ after.input ∧
        ∀ rest, read3BitLengths list (bitstream.facing (used ++ rest)) count =
          .ok (true, list', after.facing rest) := by
  induction count with
  | zero =>
    intro list bitstream h
    rw [read3BitLengths] at h
    injection h with h
    injection h with _ h
    injection h with hlist hafter
    subst hlist hafter
    exact ⟨[], rfl, fun rest ↦ rfl⟩
  | succ count ih =>
    intro list bitstream h
    rw [read3BitLengths] at h
    split at h
    · cases h
    · cases h
    · next length middle hread =>
      obtain ⟨first, hfirst, hsame⟩ := (InfBS.suspendable_readBits 3).settle _ _ _ hread
      obtain ⟨second, hsecond, hrest⟩ := ih _ _ h
      refine ⟨first ++ second, by rw [hfirst, hsecond, List.append_assoc], fun rest ↦ ?_⟩
      rw [read3BitLengths, List.append_assoc, hsame]
      exact hrest rest

theorem read3BitLengths_suspend {list' : InfSLList} {after : InfBS} (more : List UInt8)
    (count : ℕ) :
    ∀ list bitstream, read3BitLengths list bitstream count = .ok (false, list', after) →
      after.input = [] ∧ list.symbol ≤ list'.symbol ∧
        read3BitLengths list (bitstream.facing (bitstream.input ++ more)) count =
          read3BitLengths list' (after.facing more) (count - (list'.symbol - list.symbol)) := by
  induction count with
  | zero => intro list bitstream h; cases h
  | succ count ih =>
    intro list bitstream h
    rw [read3BitLengths] at h
    split at h
    · cases h
    · next middle hread =>
      obtain ⟨hinput, hsame⟩ := (InfBS.suspendable_readBits 3).suspend _ _ more hread
      injection h with h
      injection h with _ h
      injection h with hlist hafter
      subst hlist hafter
      refine ⟨hinput, le_rfl, ?_⟩
      rw [Nat.sub_self, Nat.sub_zero, read3BitLengths, read3BitLengths, hsame]
    · next length middle hread =>
      obtain ⟨used, hused, hsame⟩ := (InfBS.suspendable_readBits 3).settle _ _ _ hread
      obtain ⟨hinput, hle, hrest⟩ := ih _ _ h
      simp only at hle hrest
      refine ⟨hinput, by omega, ?_⟩
      rw [read3BitLengths, hused, List.append_assoc, hsame]
      refine hrest.trans ?_
      congr 1
      omega

theorem listSuspendable_infSLListAdd3BitSymlens (build : Build) (numberOfSymlens : ℕ) :
    ListSuspendable fun list bitstream ↦
      infSLListAdd3BitSymlens build list bitstream numberOfSymlens where
  fault list bitstream fault more h := by
    simp only [infSLListAdd3BitSymlens] at h ⊢
    split at h
    · next fault' hread =>
      rw [read3BitLengths_fault more _ _ _ hread]
      exact h
    · cases h
    · next list₁ after hread =>
      obtain ⟨used, hused, hsame⟩ := read3BitLengths_settle _ _ _ hread
      rw [hused, List.append_assoc, hsame]
      split at h
      · next hadd => simpa only [hadd] using h
      · cases h
  settle list bitstream list' after h := by
    simp only [infSLListAdd3BitSymlens] at h
    split at h
    · cases h
    · cases h
    · next list₁ middle hread =>
      obtain ⟨used, hused, hsame⟩ := read3BitLengths_settle _ _ _ hread
      split at h
      · cases h
      · next list₂ hadd =>
        injection h with h
        injection h with _ h
        injection h with hlist hafter
        subst hlist hafter
        refine ⟨used, hused, fun rest ↦ ?_⟩
        simp only [infSLListAdd3BitSymlens, hsame, hadd]
  suspend list bitstream list' after more h := by
    simp only [infSLListAdd3BitSymlens] at h
    split at h
    · cases h
    · next list₁ middle hread =>
      obtain ⟨hinput, hle, hsame⟩ := read3BitLengths_suspend more _ _ _ hread
      injection h with h
      injection h with _ h
      injection h with hlist hafter
      subst hlist hafter
      refine ⟨hinput, ?_⟩
      simp only [infSLListAdd3BitSymlens, hsame]
      rw [show min numberOfSymlens infSymlenSequenceSize - list.symbol -
          (list₁.symbol - list.symbol) =
        min numberOfSymlens infSymlenSequenceSize - list₁.symbol by omega]
    · split at h <;> cases h

end ReadThreeBits

section ReadCommands

/-- A command that takes no extra bits. -/
theorem runCommand_default {list : InfSLList} (bitstream : InfBS) (h16 : list.command ≠ 16)
    (h17 : list.command ≠ 17) (h18 : list.command ≠ 18) :
    runCommand list bitstream =
      .ok (true, { list with repetitions := 1, huffmanLength := list.command, command := 0 },
        bitstream) := by
  rw [runCommand]
  split <;> simp_all

theorem readRepetitions_fault {list : InfSLList} {bitstream : InfBS} {extraBits base length : ℕ}
    {fault : Fault} (more : List UInt8)
    (h : readRepetitions list bitstream extraBits base length = .error fault) :
    readRepetitions list (bitstream.facing (bitstream.input ++ more)) extraBits base length =
      .error fault := by
  rw [readRepetitions] at h ⊢
  split at h
  · next fault' hread =>
    rw [(InfBS.suspendable_readBits extraBits).fault _ _ more hread]
    exact h
  · cases h
  · cases h

theorem readRepetitions_settle {list list' : InfSLList} {bitstream after : InfBS}
    {extraBits base length : ℕ}
    (h : readRepetitions list bitstream extraBits base length = .ok (true, list', after)) :
    ∃ used, bitstream.input = used ++ after.input ∧
      ∀ rest, readRepetitions list (bitstream.facing (used ++ rest)) extraBits base length =
        .ok (true, list', after.facing rest) := by
  rw [readRepetitions] at h
  split at h
  · cases h
  · cases h
  · next value middle hread =>
    obtain ⟨used, hused, hsame⟩ := (InfBS.suspendable_readBits extraBits).settle _ _ _ hread
    injection h with h
    injection h with _ h
    injection h with hlist hafter
    subst hlist hafter
    exact ⟨used, hused, fun rest ↦ by rw [readRepetitions, hsame]⟩

theorem readRepetitions_suspend {list list' : InfSLList} {bitstream after : InfBS}
    {extraBits base length : ℕ} (more : List UInt8)
    (h : readRepetitions list bitstream extraBits base length = .ok (false, list', after)) :
    list' = list ∧ after.input = [] ∧
      readRepetitions list (bitstream.facing (bitstream.input ++ more)) extraBits base length =
        readRepetitions list (after.facing more) extraBits base length := by
  rw [readRepetitions] at h
  split at h
  · cases h
  · next middle hread =>
    obtain ⟨hinput, hsame⟩ := (InfBS.suspendable_readBits extraBits).suspend _ _ more hread
    injection h with h
    injection h with _ h
    injection h with hlist hafter
    subst hlist hafter
    exact ⟨rfl, hinput, by rw [readRepetitions, readRepetitions, hsame]⟩
  · cases h

/-- The commands, with the extra bits, the least number of repetitions and the length of each. -/
theorem runCommand_cases (list : InfSLList) :
    (∃ extraBits base length, list.command ≠ 0 ∧
      ∀ bitstream, runCommand list bitstream =
        readRepetitions list bitstream extraBits (base + 1) length) ∨
    ∀ bitstream, runCommand list bitstream =
      .ok (true, { list with repetitions := 1, huffmanLength := list.command, command := 0 },
        bitstream) := by
  by_cases h16 : list.command = 16
  · exact .inl ⟨2, 2, list.huffmanLength, by omega, fun bitstream ↦ by rw [runCommand, h16]; rfl⟩
  by_cases h17 : list.command = 17
  · exact .inl ⟨3, 2, 0, by omega, fun bitstream ↦ by rw [runCommand, h17]; rfl⟩
  by_cases h18 : list.command = 18
  · exact .inl ⟨7, 10, 0, by omega, fun bitstream ↦ by rw [runCommand, h18]; rfl⟩
  exact .inr fun bitstream ↦ runCommand_default bitstream h16 h17 h18

theorem listSuspendable_runCommand : ListSuspendable runCommand where
  fault list bitstream fault more h := by
    rcases runCommand_cases list with ⟨extraBits, base, length, _, hrun⟩ | hrun
    · rw [hrun] at h ⊢
      exact readRepetitions_fault more h
    · rw [hrun] at h
      cases h
  settle list bitstream list' after h := by
    rcases runCommand_cases list with ⟨extraBits, base, length, _, hrun⟩ | hrun
    · simp only [hrun] at h ⊢
      exact readRepetitions_settle h
    · rw [hrun] at h
      injection h with h
      injection h with _ h
      injection h with hlist hafter
      subst hlist hafter
      exact ⟨[], rfl, fun rest ↦ hrun _⟩
  suspend list bitstream list' after more h := by
    rcases runCommand_cases list with ⟨extraBits, base, length, _, hrun⟩ | hrun
    · rw [hrun] at h
      obtain ⟨hlist, hinput, hsame⟩ := readRepetitions_suspend more h
      subst hlist
      exact ⟨hinput, by rw [hrun, hrun, hsame]⟩
    · rw [hrun] at h
      cases h

/-- What a suspended command leaves in the list: the command itself, which is not zero. -/
theorem runCommand_pending {list list' : InfSLList} {bitstream after : InfBS}
    (h : runCommand list bitstream = .ok (false, list', after)) :
    list' = list ∧ list.command ≠ 0 := by
  rcases runCommand_cases list with ⟨extraBits, base, length, hcommand, hrun⟩ | hrun
  · rw [hrun] at h
    exact ⟨(readRepetitions_suspend [] h).1, hcommand⟩
  · rw [hrun] at h
    cases h

theorem listSuspendable_readCommand (decoder : HuffTable) :
    ListSuspendable (readCommand decoder) where
  fault list bitstream fault more h := by
    rw [readCommand] at h ⊢
    by_cases hcommand : list.command = 0
    · rw [if_pos hcommand] at h ⊢
      split at h
      · next fault' hread =>
        rw [(InfBS.suspendable_readEncodedBits decoder).fault _ _ more hread]
        exact h
      · cases h
      · next command middle hread =>
        obtain ⟨used, hused, hsame⟩ :=
          (InfBS.suspendable_readEncodedBits decoder).settle _ _ _ hread
        rw [hused, List.append_assoc, hsame]
        exact listSuspendable_runCommand.fault _ _ _ more h
    · rw [if_neg hcommand] at h ⊢
      exact listSuspendable_runCommand.fault _ _ _ more h
  settle list bitstream list' after h := by
    rw [readCommand] at h
    by_cases hcommand : list.command = 0
    · rw [if_pos hcommand] at h
      split at h
      · cases h
      · cases h
      · next command middle hread =>
        obtain ⟨first, hfirst, hsame⟩ :=
          (InfBS.suspendable_readEncodedBits decoder).settle _ _ _ hread
        obtain ⟨second, hsecond, hrest⟩ := listSuspendable_runCommand.settle _ _ _ _ h
        refine ⟨first ++ second, by rw [hfirst, hsecond, List.append_assoc], fun rest ↦ ?_⟩
        rw [readCommand, if_pos hcommand, List.append_assoc, hsame]
        exact hrest rest
    · rw [if_neg hcommand] at h
      obtain ⟨used, hused, hsame⟩ := listSuspendable_runCommand.settle _ _ _ _ h
      exact ⟨used, hused, fun rest ↦ by rw [readCommand, if_neg hcommand, hsame]⟩
  suspend list bitstream list' after more h := by
    rw [readCommand] at h
    by_cases hcommand : list.command = 0
    · rw [if_pos hcommand] at h
      split at h
      · cases h
      · next middle hread =>
        obtain ⟨hinput, hsame⟩ :=
          (InfBS.suspendable_readEncodedBits decoder).suspend _ _ more hread
        injection h with h
        injection h with _ h
        injection h with hlist hafter
        subst hlist hafter
        refine ⟨hinput, ?_⟩
        rw [readCommand, readCommand, if_pos hcommand, if_pos hcommand, hsame]
      · next command middle hread =>
        obtain ⟨used, hused, hsame⟩ :=
          (InfBS.suspendable_readEncodedBits decoder).settle _ _ _ hread
        obtain ⟨hinput, hrest⟩ := listSuspendable_runCommand.suspend _ _ _ _ more h
        obtain ⟨hlist, hpending⟩ := runCommand_pending h
        refine ⟨hinput, ?_⟩
        rw [readCommand, if_pos hcommand, hused, List.append_assoc, hsame, readCommand, hlist,
          if_neg hpending]
        rw [hlist] at hrest
        exact hrest
    · rw [if_neg hcommand] at h
      obtain ⟨hinput, hsame⟩ := listSuspendable_runCommand.suspend _ _ _ _ more h
      obtain ⟨hlist, hpending⟩ := runCommand_pending h
      refine ⟨hinput, ?_⟩
      rw [readCommand, readCommand, if_neg hcommand, hlist, if_neg hpending]
      rw [hlist] at hsame
      exact hsame

end ReadCommands

section Repetitions

variable {build : Build}

/-- `infSLListAddSymlen` changes the linked lists only. -/
theorem infSLListAddSymlen_keeps {list list' : InfSLList} {symbol huffmanLength : ℕ}
    (h : infSLListAddSymlen build list symbol huffmanLength = .ok list') :
    list'.symbol = list.symbol ∧ list'.repetitions = list.repetitions ∧
      list'.command = list.command ∧ list'.huffmanLength = list.huffmanLength := by
  simp only [infSLListAddSymlen, bind, Except.bind] at h
  split at h
  · cases h
  split at h
  · cases h
  split at h
  · cases h; exact ⟨rfl, rfl, rfl, rfl⟩
  split at h
  · cases h
  split at h
  · cases h
  split at h <;> (cases h; exact ⟨rfl, rfl, rfl, rfl⟩)

/-- What a turn of the inner loop leaves: nothing pending, unless the symbols are complete. -/
structure RepetitionsAdded (numberOfSymlens : ℕ) (list list' : InfSLList) : Prop where
  done : list'.symbol < numberOfSymlens → list'.repetitions = 0
  command : list'.command = list.command
  huffmanLength : list'.huffmanLength = list.huffmanLength
  mono : list.symbol ≤ list'.symbol
  grows : 0 < list.repetitions → list.symbol < numberOfSymlens → list.symbol < list'.symbol

theorem addRepetitions_spec {numberOfSymlens : ℕ} {list' : InfSLList} (fuel : ℕ) :
    ∀ list, numberOfSymlens - list.symbol ≤ fuel →
      addRepetitions build numberOfSymlens fuel list = .ok list' →
        RepetitionsAdded numberOfSymlens list list' := by
  induction fuel with
  | zero =>
    intro list hfuel h
    cases h
    exact ⟨fun h ↦ by omega, rfl, rfl, le_rfl, fun _ h ↦ by omega⟩
  | succ fuel ih =>
    intro list hfuel h
    rw [addRepetitions] at h
    split at h
    · next hpending =>
      split at h
      · cases h
      · next list₁ hadd =>
        obtain ⟨hsymbol, hrepetitions, hcommand, hlength⟩ := infSLListAddSymlen_keeps hadd
        have hrest := ih _ (by simp only; omega) h
        have hmono := hrest.mono
        simp only at hmono
        exact ⟨hrest.done, hrest.command.trans hcommand, hrest.huffmanLength.trans hlength,
          by omega, fun _ _ ↦ by omega⟩
    · next hnone =>
      cases h
      exact ⟨fun h ↦ by omega, rfl, rfl, le_rfl, fun h₁ h₂ ↦ absurd ⟨h₁, h₂⟩ hnone⟩

theorem addRepetitions_of_zero {list : InfSLList} (h : list.repetitions = 0)
    (numberOfSymlens fuel : ℕ) :
    addRepetitions build numberOfSymlens fuel list = .ok list := by
  cases fuel with
  | zero => rfl
  | succ fuel => rw [addRepetitions, if_neg (by omega)]

/-- What a command leaves: its repetitions, and the symbol where it was. -/
theorem readCommand_true {decoder : HuffTable} {list list' : InfSLList} {bitstream after : InfBS}
    (h : readCommand decoder list bitstream = .ok (true, list', after)) :
    list'.symbol = list.symbol ∧ 0 < list'.repetitions ∧ list'.command = 0 := by
  have hrun : ∀ (list : InfSLList) (bitstream : InfBS),
      runCommand list bitstream = .ok (true, list', after) →
        list'.symbol = list.symbol ∧ 0 < list'.repetitions ∧ list'.command = 0 := by
    intro list bitstream h
    rcases runCommand_cases list with ⟨extraBits, base, length, _, hcase⟩ | hcase
    · rw [hcase, readRepetitions] at h
      split at h
      · cases h
      · cases h
      · cases h; exact ⟨rfl, by simp only; omega, rfl⟩
    · rw [hcase] at h
      cases h
      exact ⟨rfl, Nat.one_pos, rfl⟩
  rw [readCommand] at h
  split at h
  · split at h
    · cases h
    · cases h
    · next command middle _ =>
      have hdone := hrun { list with command := command } middle h
      exact hdone
  · exact hrun _ _ h

theorem readCommand_false {decoder : HuffTable} {list list' : InfSLList} {bitstream after : InfBS}
    (h : readCommand decoder list bitstream = .ok (false, list', after)) :
    list'.symbol = list.symbol ∧ list'.repetitions = list.repetitions := by
  rw [readCommand] at h
  split at h
  · split at h
    · cases h
    · cases h; exact ⟨rfl, rfl⟩
    · rw [(runCommand_pending h).1]
      exact ⟨rfl, rfl⟩
  · rw [(runCommand_pending h).1]
    exact ⟨rfl, rfl⟩

/-- A bound on the turns of the outer loop. -/
def turnsLeft (numberOfSymlens : ℕ) (list : InfSLList) : ℕ :=
  (numberOfSymlens - list.symbol) + if list.repetitions = 0 then 2 else 1

theorem turnsLeft_le (numberOfSymlens : ℕ) (list : InfSLList) :
    turnsLeft numberOfSymlens list ≤ numberOfSymlens + 2 := by
  rw [turnsLeft]
  split <;> omega

/-- The list after a command has fewer turns left than before the repetitions that came first. -/
theorem turnsLeft_lt {numberOfSymlens : ℕ} {list list₁ list₂ : InfSLList}
    (hadded : RepetitionsAdded numberOfSymlens list list₁) (hlt : list.symbol < numberOfSymlens)
    (hsymbol : list₂.symbol = list₁.symbol) (hpositive : 0 < list₂.repetitions) :
    turnsLeft numberOfSymlens list₂ < turnsLeft numberOfSymlens list := by
  have hmono := hadded.mono
  have hgrows := hadded.grows
  rw [turnsLeft, turnsLeft, if_neg (by omega : list₂.repetitions ≠ 0)]
  split
  · omega
  · have := hgrows (by omega) hlt
    omega

/-- Fuel beyond the turns left makes no difference. -/
theorem encodedSymlensLoop_fuel {numberOfSymlens : ℕ} {decoder : HuffTable} (fuel : ℕ) :
    ∀ other list bitstream, turnsLeft numberOfSymlens list ≤ fuel →
      turnsLeft numberOfSymlens list ≤ other →
        encodedSymlensLoop build numberOfSymlens decoder fuel list bitstream =
          encodedSymlensLoop build numberOfSymlens decoder other list bitstream := by
  have hpos : ∀ list, 0 < turnsLeft numberOfSymlens list := by
    intro list
    rw [turnsLeft]
    split <;> omega
  induction fuel with
  | zero => intro other list bitstream h _; exact absurd h (by have := hpos list; omega)
  | succ fuel ih =>
    intro other list bitstream hfuel hother
    obtain ⟨other, rfl⟩ : ∃ k, other = k + 1 := ⟨other - 1, by have := hpos list; omega⟩
    rw [encodedSymlensLoop, encodedSymlensLoop]
    split
    · next hlt =>
      split
      · rfl
      · next list₁ hadd =>
        have hadded := addRepetitions_spec _ _ (by omega) hadd
        split
        · split
          · rfl
          · split
            · rfl
            · rfl
            · next list₂ after hread =>
              obtain ⟨hsymbol, hpositive, _⟩ := readCommand_true hread
              have hlower := turnsLeft_lt hadded hlt hsymbol hpositive
              exact ih other _ _ (by omega) (by omega)
        · rfl
    · rfl

theorem encodedSymlensLoop_fault {numberOfSymlens : ℕ} {decoder : HuffTable} {fault : Fault}
    (more : List UInt8) (fuel : ℕ) :
    ∀ list bitstream,
      encodedSymlensLoop build numberOfSymlens decoder fuel list bitstream = .error fault →
        encodedSymlensLoop build numberOfSymlens decoder fuel list
          (bitstream.facing (bitstream.input ++ more)) = .error fault := by
  induction fuel with
  | zero => intro list bitstream h; exact h
  | succ fuel ih =>
    intro list bitstream h
    rw [encodedSymlensLoop] at h ⊢
    by_cases hlt : list.symbol < numberOfSymlens
    · rw [if_pos hlt] at h ⊢
      cases hadd : addRepetitions build numberOfSymlens numberOfSymlens list with
      | error fault' => rw [hadd] at h; exact h
      | ok list₁ =>
        simp only [hadd] at h ⊢
        by_cases hlt₁ : list₁.symbol < numberOfSymlens
        · rw [if_pos hlt₁] at h ⊢
          cases hassert : build.assert (list₁.repetitions == 0) with
          | error fault' => rw [hassert] at h; exact h
          | ok _ =>
            simp only [hassert] at h ⊢
            split at h
            · next fault' hread =>
              rw [(listSuspendable_readCommand decoder).fault _ _ _ more hread]
              exact h
            · cases h
            · next list₂ after hread =>
              obtain ⟨used, hused, hsame⟩ :=
                (listSuspendable_readCommand decoder).settle _ _ _ _ hread
              rw [hused, List.append_assoc, hsame]
              exact ih _ _ h
        · rw [if_neg hlt₁] at h
          cases h
    · rw [if_neg hlt] at h
      cases h

theorem encodedSymlensLoop_settle {numberOfSymlens : ℕ} {decoder : HuffTable}
    {list' : InfSLList} {after : InfBS} (fuel : ℕ) :
    ∀ list bitstream, encodedSymlensLoop build numberOfSymlens decoder fuel list bitstream =
        .ok (true, list', after) →
      ∃ used, bitstream.input = used ++ after.input ∧
        ∀ rest, encodedSymlensLoop build numberOfSymlens decoder fuel list
          (bitstream.facing (used ++ rest)) = .ok (true, list', after.facing rest) := by
  induction fuel with
  | zero => intro list bitstream h; cases h
  | succ fuel ih =>
    intro list bitstream h
    rw [encodedSymlensLoop] at h
    by_cases hlt : list.symbol < numberOfSymlens
    · rw [if_pos hlt] at h
      cases hadd : addRepetitions build numberOfSymlens numberOfSymlens list with
      | error fault' => rw [hadd] at h; cases h
      | ok list₁ =>
        simp only [hadd] at h
        by_cases hlt₁ : list₁.symbol < numberOfSymlens
        · rw [if_pos hlt₁] at h
          cases hassert : build.assert (list₁.repetitions == 0) with
          | error fault' => rw [hassert] at h; cases h
          | ok _ =>
            simp only [hassert] at h
            split at h
            · cases h
            · cases h
            · next list₂ middle hread =>
              obtain ⟨first, hfirst, hsame⟩ :=
                (listSuspendable_readCommand decoder).settle _ _ _ _ hread
              obtain ⟨second, hsecond, hrest⟩ := ih _ _ h
              refine ⟨first ++ second, by rw [hfirst, hsecond, List.append_assoc],
                fun rest ↦ ?_⟩
              rw [encodedSymlensLoop, if_pos hlt, hadd]
              simp only [if_pos hlt₁, hassert]
              rw [List.append_assoc, hsame]
              exact hrest rest
        · rw [if_neg hlt₁] at h
          cases h
          refine ⟨[], rfl, fun rest ↦ ?_⟩
          rw [encodedSymlensLoop, if_pos hlt, hadd]
          simp only [if_neg hlt₁]
          rfl
    · rw [if_neg hlt] at h
      cases h
      refine ⟨[], rfl, fun rest ↦ ?_⟩
      rw [encodedSymlensLoop, if_neg hlt]
      rfl

theorem encodedSymlensLoop_suspend {numberOfSymlens : ℕ} {decoder : HuffTable}
    {list' : InfSLList} {after : InfBS} (more : List UInt8) (fuel : ℕ) :
    ∀ list bitstream, turnsLeft numberOfSymlens list ≤ fuel →
      encodedSymlensLoop build numberOfSymlens decoder fuel list bitstream =
          .ok (false, list', after) →
        after.input = [] ∧ turnsLeft numberOfSymlens list' ≤ turnsLeft numberOfSymlens list ∧
          encodedSymlensLoop build numberOfSymlens decoder fuel list
              (bitstream.facing (bitstream.input ++ more)) =
            encodedSymlensLoop build numberOfSymlens decoder fuel list' (after.facing more) := by
  induction fuel with
  | zero => intro list bitstream _ h; cases h
  | succ fuel ih =>
    intro list bitstream hfuel h
    rw [encodedSymlensLoop] at h
    by_cases hlt : list.symbol < numberOfSymlens
    · rw [if_pos hlt] at h
      cases hadd : addRepetitions build numberOfSymlens numberOfSymlens list with
      | error fault' => rw [hadd] at h; cases h
      | ok list₁ =>
        have hadded := addRepetitions_spec _ _ (by omega) hadd
        simp only [hadd] at h
        by_cases hlt₁ : list₁.symbol < numberOfSymlens
        · rw [if_pos hlt₁] at h
          have hzero := hadded.done hlt₁
          cases hassert : build.assert (list₁.repetitions == 0) with
          | error fault' => rw [hassert] at h; cases h
          | ok _ =>
            simp only [hassert] at h
            split at h
            · cases h
            · -- the command is not complete: the same turn is entered again
              next list₂ middle hread =>
              obtain ⟨hinput, hsame⟩ :=
                (listSuspendable_readCommand decoder).suspend _ _ _ _ more hread
              obtain ⟨hsymbol, hrepetitions⟩ := readCommand_false hread
              rw [hzero] at hrepetitions
              cases h
              refine ⟨hinput, ?_, ?_⟩
              · have hmono := hadded.mono
                have hgrows := hadded.grows
                rw [turnsLeft, turnsLeft, if_pos hrepetitions]
                split
                · omega
                · have := hgrows (by omega) hlt
                  omega
              · rw [encodedSymlensLoop, encodedSymlensLoop, if_pos hlt, hadd,
                  if_pos (hsymbol ▸ hlt₁), addRepetitions_of_zero hrepetitions]
                simp only [if_pos hlt₁, if_pos (hsymbol ▸ hlt₁ : list'.symbol < _), hassert,
                  hrepetitions, hsame, beq_self_eq_true, Build.assert_true]
            · next list₂ middle hread =>
              obtain ⟨used, hused, hsame⟩ :=
                (listSuspendable_readCommand decoder).settle _ _ _ _ hread
              obtain ⟨hsymbol, hpositive, _⟩ := readCommand_true hread
              have hlower := turnsLeft_lt hadded hlt hsymbol hpositive
              obtain ⟨hinput, hturns, hrest⟩ := ih _ _ (by omega) h
              refine ⟨hinput, by omega, ?_⟩
              rw [encodedSymlensLoop_fuel (fuel + 1) fuel list' _ (by omega) (by omega), ← hrest,
                encodedSymlensLoop, if_pos hlt, hadd]
              simp only [if_pos hlt₁, hassert]
              rw [hused, List.append_assoc, hsame]
        · rw [if_neg hlt₁] at h
          cases h
    · rw [if_neg hlt] at h
      cases h

theorem listSuspendable_infSLListAddEncodedSymlens (numberOfSymlens : ℕ) (decoder : HuffTable) :
    ListSuspendable fun list bitstream ↦
      infSLListAddEncodedSymlens build list bitstream numberOfSymlens decoder where
  fault _ _ _ more h := encodedSymlensLoop_fault more _ _ _ h
  settle _ _ _ _ h := encodedSymlensLoop_settle _ _ _ h
  suspend list _ _ _ more h := by
    obtain ⟨hinput, _, hsame⟩ := encodedSymlensLoop_suspend more _ _ _ (turnsLeft_le _ list) h
    exact ⟨hinput, hsame⟩

end Repetitions

end ZephyrThrift.Muzic
