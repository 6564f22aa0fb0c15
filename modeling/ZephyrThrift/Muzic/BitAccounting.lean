import ZephyrThrift.Foundation.CompleteCode
import ZephyrThrift.Muzic.Reading

/-!
# The bit reader keeps the accounts

A session of reads from one bit stream whose input is delivered in pieces, each failed read being
repeated before any other. Whatever the reads and the pieces, no read faults, and what was handed out,
the padding dropped, the buffer and the unread bytes are together the input (`bitRun_accounts`).
-/

set_option autoImplicit false
set_option relaxedAutoImplicit false

namespace ZephyrThrift.Muzic

open Foundation

/-! ### Loads -/

namespace InfBS

/-- Bytes loaded one after the other, none of whose bits is shifted beyond the 32 bits of the buffer. -/
inductive Loads : InfBS → InfBS → Prop
  | refl (bitstream : InfBS) : Loads bitstream bitstream
  | load {bits size loaded : ℕ} {byte : UInt8} {input : List UInt8} {after : InfBS}
      (hwithin : size + 8 ≤ 32) (hload : loadByte bits size byte = .ok loaded)
      (hnext : Loads ⟨loaded, size + 8, input⟩ after) : Loads ⟨bits, size, byte :: input⟩ after

theorem Loads.trans {first second third : InfBS} (h : Loads first second) (h' : Loads second third) :
    Loads first third := by
  induction h with
  | refl => exact h'
  | load hwithin hload _ ih => exact Loads.load hwithin hload (ih h')

theorem Loads.view {before after : InfBS} (h : Loads before after)
    (hlow : before.bits < 2 ^ before.size) :
    after.view = before.view ∧ after.bits < 2 ^ after.size := by
  induction h with
  | refl => exact ⟨rfl, hlow⟩
  | load hwithin hload _ ih =>
    rw [loadByte_eq hlow hwithin] at hload
    cases hload
    obtain ⟨hview, hlow'⟩ := ih (loaded_lt hlow _)
    exact ⟨hview.trans (view_load hlow _ _), hlow'⟩

/-- As far as the buffer has room, the loading loop only loads. -/
theorem loads_loadUpTo {count : ℕ} {enough : Bool} {after : InfBS} (input : List UInt8) :
    ∀ bits size, loadUpTo count bits size input = .ok (enough, after) →
      size ≤ after.size ∧ (after.size ≤ 32 → Loads ⟨bits, size, input⟩ after) := by
  induction input with
  | nil => intro bits size h; cases h; exact ⟨le_rfl, fun _ ↦ Loads.refl _⟩
  | cons byte input ih =>
    intro bits size h
    rw [loadUpTo] at h
    split at h
    · cases hload : loadByte bits size byte with
      | error fault => rw [hload] at h; cases h
      | ok loaded =>
        rw [hload] at h
        obtain ⟨hle, hloads⟩ := ih _ _ h
        exact ⟨by omega, fun hroom ↦ Loads.load (by omega) hload (hloads hroom)⟩
    · cases h; exact ⟨le_rfl, fun _ ↦ Loads.refl _⟩

/-- So does the loop of `readEncodedBits`, up to the code it takes. -/
theorem loads_readEncodedLoop {decoder : HuffTable} {result : Option ℕ} {after : InfBS}
    (input : List UInt8) :
    ∀ bits size, readEncodedLoop decoder bits size input = .ok (result, after) →
      ∃ loaded : InfBS, size ≤ loaded.size ∧
        loaded.size + 8 * loaded.input.length = size + 8 * input.length ∧
        loaded.input = after.input ∧ (result = none → loaded = after) ∧
        (loaded.size ≤ 32 → Loads ⟨bits, size, input⟩ loaded) := by
  have htake : ∀ {data : InfHuff} {bits size : ℕ} {input : List UInt8},
      takeCode data ⟨bits, size, input⟩ = .ok (result, after) →
        after.input = input ∧ result ≠ none := by
    intro data bits size input h
    rw [takeCode] at h
    split at h
    · cases h
    · cases h; exact ⟨rfl, by simp⟩
  induction input with
  | nil =>
    intro bits size h
    rw [readEncodedLoop_eq] at h
    split at h
    · cases h
    · split at h
      · cases h
        exact ⟨_, le_rfl, rfl, rfl, fun _ ↦ rfl, fun _ ↦ Loads.refl _⟩
      · obtain ⟨hinput, hsome⟩ := htake h
        exact ⟨_, le_rfl, rfl, hinput.symm, fun hnone ↦ absurd hnone hsome, fun _ ↦ Loads.refl _⟩
  | cons byte input ih =>
    intro bits size h
    rw [readEncodedLoop_eq] at h
    split at h
    · cases h
    · split at h
      · simp only at h
        split at h
        · cases h
        · next hload =>
          obtain ⟨loaded, hle, hcount, hinput, hnone, hloads⟩ := ih _ _ h
          exact ⟨loaded, by omega, by rw [hcount, List.length_cons]; omega, hinput, hnone,
            fun hroom ↦ Loads.load (by omega) hload (hloads hroom)⟩
      · obtain ⟨hinput, hsome⟩ := htake h
        exact ⟨_, le_rfl, rfl, hinput.symm, fun hnone ↦ absurd hnone hsome, fun _ ↦ Loads.refl _⟩

end InfBS

/-! ### Reads -/

/-- A table that `infHuffMakeDecoder` made of the lengths of a complete code, added to an empty
symbol-length list. -/
structure Made (build : Build) (decoder : HuffTable) (lengths : List ℕ) : Prop where
  complete : Complete maxCodeLength lengths
  room : lengths.length ≤ infLastValidSymbol + 1
  made : ∃ list added chain sorted table resetRepetitions, Represents list [] ∧
    addSymlens build 0 lengths list = .ok added ∧
    infSLListGetSorted added resetRepetitions = .ok (chain, sorted) ∧
    infHuffMakeDecoder build table chain = .ok decoder

theorem Made.decodes {build : Build} {decoder : HuffTable} {lengths : List ℕ}
    (h : Made build decoder lengths) : Decodes decoder lengths := by
  obtain ⟨list, added, chain, sorted, table, resetRepetitions, hempty, hadd, hsort, hmake⟩ := h.made
  have hstart : Represents list (presentCodes []) := hempty
  obtain ⟨added', hadd', hrep⟩ := addSymlens_spec build lengths list [] hstart
    (by rw [List.length_nil, Nat.zero_add]; exact h.room)
    fun length hmem ↦ (h.complete.short length hmem).trans (by decide)
  cases hadd.symm.trans hadd'
  obtain ⟨chain', elements, decoder', hsort', hmake', hdecodes⟩ := sortAndMake_spec build table hrep
    h.complete.kraftLe h.complete.hasCode h.room resetRepetitions
  cases hsort.symm.trans hsort'
  cases hmake.symm.trans hmake'
  exact hdecodes

/-- A read of `inflate` from its bit stream. -/
inductive BitRead
  | bits (count : ℕ)
  | encoded (lengths : List ℕ) (decoder : HuffTable)
  | dword
  | bytes (count : ℕ)

/-- What a read returns: whether it got all it asked for, `*dest`, the bytes copied, and the bit stream
after it. -/
structure ReadOutcome where
  complete : Bool
  number : Option ℕ
  copied : List UInt8
  after : InfBS

def ReadOutcome.ofNumber (result : Option ℕ × InfBS) : ReadOutcome :=
  ⟨result.1.isSome, result.1, [], result.2⟩

namespace BitRead

def perform (build : Build) (bitstream : InfBS) : BitRead → Except Fault ReadOutcome
  | bits count => (bitstream.readBits count).map .ofNumber
  | encoded _ decoder => (bitstream.readEncodedBits decoder).map .ofNumber
  | dword => (bitstream.readDWord build).map .ofNumber
  | bytes count => (bitstream.readBytes build count).map fun (copied, complete, after) ↦
    ⟨complete, none, copied, after⟩

/-- The bits that a read hands out; for a symbol, its code word. -/
def handedOut (o : ReadOutcome) : BitRead → List Bool
  | bits count => (o.number.map (bitsOf count)).getD []
  | encoded lengths _ => (o.number.map (codeWord lengths)).getD []
  | dword => (o.number.map (bitsOf 32)).getD []
  | bytes _ => bytesBits o.copied

/-- The bit stream in which a read starts to load. -/
def aligned (bitstream : InfBS) : BitRead → InfBS
  | dword =>
    ⟨bitstream.bits >>> (bitstream.size % 8), bitstream.size - bitstream.size % 8, bitstream.input⟩
  | _ => bitstream

/-- The alignment padding that a read drops. -/
def padding (bitstream : InfBS) : BitRead → List Bool
  | dword => bitsOf (bitstream.size % 8) bitstream.bits
  | _ => []

/-- What callers keep to: at most 14 bits at once, a table of a complete code, and no bits in the buffer
in front of bytes. -/
def Valid (build : Build) (bitstream : InfBS) : BitRead → Prop
  | bits count => count ≤ 14
  | encoded lengths decoder => Made build decoder lengths
  | dword => True
  | bytes _ => bitstream.size = 0

/-- A failed read is repeated as it was, a copy of bytes with the count still wanted. -/
def Repeats : BitRead → BitRead → Prop
  | bytes _, bytes _ => True
  | failed, r => failed = r

/-- The number handed out is the number of the bits taken. -/
def Exact (o : ReadOutcome) : BitRead → Prop
  | bits count => ∀ number ∈ o.number, number < 2 ^ count
  | encoded lengths _ => ∀ symbol ∈ o.number, 0 < lengthAt lengths symbol
  | dword => ∀ number ∈ o.number, number < 2 ^ 32
  | bytes count => o.copied.length ≤ count ∧ (o.complete = true ↔ o.copied.length = count)

/-- What is asked of a read. -/
structure Fair (r : BitRead) (before : InfBS) (o : ReadOutcome) : Prop where
  loads : ∃ loaded : InfBS, (r.aligned before).Loads loaded ∧ loaded.input = o.copied ++ o.after.input
  low : o.after.bits < 2 ^ o.after.size
  small : o.complete = true → o.after.size < 8
  kept : o.complete = false → o.after.input = [] ∧
    bitsOf (r.aligned before).size (r.aligned before).bits <+: bitsOf o.after.size o.after.bits
  exact : r.Exact o
  account : r.padding before ++ r.handedOut o ++ o.after.view = before.view

end BitRead

/-! ### Sessions -/

/-- A bit stream in use: what was delivered to it, what it handed out and dropped, and the read that
failed last, if it has not been repeated. -/
structure BitSession where
  bitstream : InfBS
  delivered : List UInt8
  handedOut : List Bool
  pending : Option BitRead

def BitSession.fresh : BitSession := ⟨⟨0, 0, []⟩, [], [], none⟩

structure BitSession.Allows (build : Build) (s : BitSession) (r : BitRead) : Prop where
  valid : r.Valid build s.bitstream
  repeats : ∀ failed ∈ s.pending, failed.Repeats r

/-- Input is delivered in any pieces, at any time; a read takes place where it is allowed. -/
inductive BitRun (build : Build) : BitSession → Prop
  | fresh : BitRun build .fresh
  | deliver {s : BitSession} (piece : List UInt8) (h : BitRun build s) :
      BitRun build { s with
        bitstream := s.bitstream.facing (s.bitstream.input ++ piece)
        delivered := s.delivered ++ piece }
  | read {s : BitSession} {r : BitRead} {o : ReadOutcome} (h : BitRun build s)
      (hallowed : s.Allows build r) (hperform : r.perform build s.bitstream = .ok o) :
      BitRun build
        ⟨o.after, s.delivered, s.handedOut ++ r.padding s.bitstream ++ r.handedOut o,
          if o.complete then none else some r⟩

/-- What holds between the reads. -/
structure BitSession.Balanced (s : BitSession) : Prop where
  low : s.bitstream.bits < 2 ^ s.bitstream.size
  small : s.pending = none → s.bitstream.size < 8
  account : s.handedOut ++ bitsOf s.bitstream.size s.bitstream.bits ++ bytesBits s.bitstream.input =
    bytesBits s.delivered

/-! ### One read -/

namespace BitRead

/-- What the buffer holds while a failed read waits for input. -/
def Waits (bitstream : InfBS) : BitRead → Prop
  | bits count => bitstream.size < count
  | encoded lengths _ => ∃ symbol tail, tail ≠ [] ∧
    bitsOf bitstream.size bitstream.bits ++ tail = codeWord lengths symbol
  | dword => bitstream.size % 8 = 0 ∧ bitstream.size < 32
  | bytes _ => bitstream.size = 0

/-- A read that takes place as it should, and waits as it should where it fails. -/
def Answered (build : Build) (r : BitRead) (bitstream : InfBS) : Prop :=
  ∃ o, r.perform build bitstream = .ok o ∧ r.Fair bitstream o ∧
    (o.complete = false → r.Waits o.after)

/-- Where all input is in the buffer and nothing was dropped, every bit loaded before is still there. -/
theorem buffer_prefix {before after : InfBS} (hview : after.view = before.view)
    (hinput : after.input = []) :
    bitsOf before.size before.bits <+: bitsOf after.size after.bits := by
  rw [InfBS.view, InfBS.view, hinput, bytesBits_nil, List.append_nil] at hview
  exact ⟨_, hview.symm⟩

theorem take_view {bitstream : InfBS} {count : ℕ} (h : count ≤ bitstream.size) :
    bitstream.view.take count = bitsOf count bitstream.bits := by
  rw [InfBS.view, List.take_append_of_le_length (by rw [length_bitsOf]; exact h), take_bitsOf h]

theorem answered_bits (build : Build) {count : ℕ} {bitstream : InfBS} (hcount : count ≤ 14)
    (hlow : bitstream.bits < 2 ^ bitstream.size)
    (hready : bitstream.size < 8 ∨ (bits count).Waits bitstream) :
    (bits count).Answered build bitstream := by
  have hready : bitstream.size < 8 ∨ bitstream.size < count := hready
  obtain ⟨loaded, hload, hloaded, henough⟩ :=
    InfBS.loadUpTo_spec count bitstream.input bitstream.bits bitstream.size hlow (.inl (by omega))
  have hsize := hloaded.size
  have hview : loaded.view = bitstream.view := hloaded.view
  simp only at hsize
  have hloads := (InfBS.loads_loadUpTo _ _ _ hload).2 (by omega)
  by_cases hlong : count ≤ bitstream.size + 8 * bitstream.input.length
  · have hroom := henough hlong
    have hread : bitstream.readBits count = .ok (some (loaded.bits % 2 ^ count),
        ⟨loaded.bits >>> count, loaded.size - count, loaded.input⟩) := by
      rw [decide_eq_true hlong] at hload
      simp only [InfBS.readBits, hload, Nat.one_shiftLeft, Nat.and_two_pow_sub_one_eq_mod]
    refine ⟨_, by rw [perform, hread]; rfl, ⟨⟨loaded, hloads, rfl⟩, ?_, ?_, ?_, ?_, ?_⟩, ?_⟩
    · exact InfBS.dropped_lt hloaded.low hroom
    · intro _
      simp only [ReadOutcome.ofNumber]
      omega
    · intro hfail; cases hfail
    · rintro number ⟨⟩
      exact Nat.mod_lt _ (Nat.two_pow_pos count)
    · simp only [padding, handedOut, ReadOutcome.ofNumber, Option.map_some, Option.getD_some,
        List.nil_append]
      rw [bitsOf_mod, InfBS.view_drop hroom, ← take_view hroom, List.take_append_drop, hview]
    · intro hfail; cases hfail
  · have hread : bitstream.readBits count = .ok (none, loaded) := by
      rw [decide_eq_false hlong] at hload
      simp only [InfBS.readBits, hload]
    have hinput := ((InfBS.suspendable_readBits count).suspend _ _ [] hread).1
    have hlength := congrArg List.length hview
    rw [InfBS.length_view, InfBS.length_view, hinput, List.length_nil] at hlength
    refine ⟨_, by rw [perform, hread]; rfl, ⟨⟨loaded, hloads, rfl⟩, hloaded.low, ?_,
      fun _ ↦ ⟨hinput, buffer_prefix hview hinput⟩, ?_, ?_⟩, ?_⟩
    · intro hdone; cases hdone
    · rintro number ⟨⟩
    · exact hview
    · intro _
      simp only [Waits, ReadOutcome.ofNumber]
      omega

theorem answered_dword (build : Build) {bitstream : InfBS}
    (hlow : bitstream.bits < 2 ^ bitstream.size)
    (hready : bitstream.size < 8 ∨ dword.Waits bitstream) : dword.Answered build bitstream := by
  have hready : bitstream.size < 8 ∨ bitstream.size % 8 = 0 ∧ bitstream.size < 32 := hready
  have hskip : bitstream.size % 8 ≤ bitstream.size := Nat.mod_le _ _
  have hstart := InfBS.dropped_lt hlow hskip
  obtain ⟨loaded, hload, hloaded, henough⟩ := InfBS.loadUpTo_spec 32 bitstream.input
    (bitstream.bits >>> (bitstream.size % 8)) (bitstream.size - bitstream.size % 8) hstart
    (.inr ⟨rfl, by omega⟩)
  have hsize := hloaded.size
  have haligned := hloaded.aligned
  have hview := hloaded.view
  simp only at hsize haligned
  have hloads := (InfBS.loads_loadUpTo _ _ _ hload).2 (by omega)
  have hpadding : dword.padding bitstream ++ loaded.view = bitstream.view := by
    rw [hview, InfBS.view_drop hskip, padding, ← take_view hskip, List.take_append_drop]
  by_cases hlong : 32 ≤ bitstream.size - bitstream.size % 8 + 8 * bitstream.input.length
  · have hfull : loaded.size = 32 := by
      have := henough hlong
      omega
    have hread : bitstream.readDWord build = .ok (some loaded.bits, ⟨0, 0, loaded.input⟩) := by
      rw [decide_eq_true hlong] at hload
      simp only [InfBS.readDWord, hload, hfull, beq_self_eq_true, Build.assert_true]
    have hbits := hloaded.low
    rw [hfull] at hbits
    refine ⟨_, by rw [perform, hread]; rfl, ⟨⟨loaded, hloads, rfl⟩, Nat.one_pos,
      fun _ ↦ by simp [ReadOutcome.ofNumber], ?_, ?_, ?_⟩, ?_⟩
    · intro hfail; cases hfail
    · rintro number ⟨⟩
      exact hbits
    · rw [List.append_assoc, ← hpadding]
      congr 1
      simp only [handedOut, ReadOutcome.ofNumber, Option.map_some, Option.getD_some, InfBS.view, hfull]
      rfl
    · intro hfail; cases hfail
  · have hread : bitstream.readDWord build = .ok (none, loaded) := by
      rw [decide_eq_false hlong] at hload
      simp only [InfBS.readDWord, hload]
    have hinput := ((InfBS.suspendable_readDWord build).suspend _ _ [] hread).1
    have hlength := congrArg List.length hview
    rw [InfBS.length_view, InfBS.length_view, hinput, List.length_nil] at hlength
    refine ⟨_, by rw [perform, hread]; rfl, ⟨⟨loaded, hloads, rfl⟩, hloaded.low, ?_,
      fun _ ↦ ⟨hinput, buffer_prefix hview hinput⟩, ?_, ?_⟩, ?_⟩
    · intro hdone; cases hdone
    · rintro number ⟨⟩
    · exact (congrArg (· ++ loaded.view) (List.append_nil _)).trans hpadding
    · intro _
      simp only [Waits, ReadOutcome.ofNumber] at hlength ⊢
      omega

theorem answered_bytes (build : Build) (count : ℕ) {bitstream : InfBS}
    (hlow : bitstream.bits < 2 ^ bitstream.size) (hempty : bitstream.size = 0) :
    (bytes count).Answered build bitstream := by
  have hread : bitstream.readBytes build count = .ok (bitstream.input.take
      (min count bitstream.input.length), min count bitstream.input.length == count,
      { bitstream with input := bitstream.input.drop (min count bitstream.input.length) }) := by
    simp only [InfBS.readBytes, hempty, beq_self_eq_true, Build.assert_true]
  refine ⟨_, by rw [perform, hread]; rfl, ⟨⟨bitstream, InfBS.Loads.refl _, ?_⟩, hlow, ?_, ?_, ?_, ?_⟩, ?_⟩
  · exact (List.take_append_drop _ _).symm
  · intro _
    simp only [hempty]
    norm_num
  · intro hfail
    have hshort : min count bitstream.input.length = bitstream.input.length := by
      have hne : min count bitstream.input.length ≠ count := by simpa using hfail
      omega
    exact ⟨by simp only [hshort, List.drop_length], List.prefix_refl _⟩
  · refine ⟨by simp only [List.length_take]; omega, ?_⟩
    simp only [beq_iff_eq, List.length_take]
    omega
  · simp only [padding, handedOut, InfBS.view, hempty, bitsOf, List.nil_append]
    rw [← bytesBits_append, List.take_append_drop]
  · intro _
    exact hempty

/-- Of a code word whose first bits wait in the buffer, and of any that agrees with these bits, some bits
are still missing. -/
theorem not_within_buffer {lengths : List ℕ} {symbol : ℕ} {bitstream : InfBS} {behind tail : List Bool}
    {decoder : HuffTable} (hkraft : KraftLe maxCodeLength lengths) (hpos : 0 < lengthAt lengths symbol)
    (hword : codeWord lengths symbol ++ behind = bitstream.view ++ tail)
    (hwaits : (encoded lengths decoder).Waits bitstream) :
    bitstream.size < lengthAt lengths symbol := by
  obtain ⟨other, missing, hmissing, hother⟩ := hwaits
  by_contra hle
  rw [not_lt] at hle
  have hlength := congrArg List.length hother
  rw [List.length_append, length_bitsOf, length_codeWord] at hlength
  have hmore := List.length_pos_of_ne_nil hmissing
  have hbuffer : codeWord lengths symbol <+: bitsOf bitstream.size bitstream.bits := by
    refine List.prefix_of_prefix_length_le ⟨behind, hword⟩ ?_ (by
      rw [length_codeWord, length_bitsOf]; exact hle)
    exact ⟨bytesBits bitstream.input ++ tail, by rw [InfBS.view, List.append_assoc]⟩
  have hsame := codeWord_unique hkraft hpos (by omega) (hbuffer.trans ⟨missing, hother⟩)
    (List.prefix_refl (codeWord lengths other))
  rw [hsame] at hle
  omega

/-- `readEncodedBits` enters its loop with a bit in the buffer, if there is one. -/
theorem enters_loop (decoder : HuffTable) {bitstream : InfBS}
    (hlow : bitstream.bits < 2 ^ bitstream.size) :
    bitstream.view = [] ∨ ∃ entered : InfBS,
      bitstream.readEncodedBits decoder =
        InfBS.readEncodedLoop decoder entered.bits entered.size entered.input ∧
      bitstream.Loads entered ∧ (entered.size = bitstream.size ∨ entered.size = 8) := by
  obtain ⟨bits, size, input⟩ := bitstream
  rcases Nat.eq_zero_or_pos size with rfl | hpos
  · cases input with
    | nil => exact .inl rfl
    | cons byte input =>
      have hload := InfBS.loadByte_eq hlow (show 0 + 8 ≤ 32 by norm_num) byte
      exact .inr ⟨⟨_, 8, input⟩, by simp only [InfBS.readEncodedBits, if_true, hload],
        InfBS.Loads.load (by norm_num) hload (InfBS.Loads.refl _), .inr rfl⟩
  · exact .inr ⟨_, InfBS.readEncodedBits_of_size _ hpos.ne', InfBS.Loads.refl _, .inl rfl⟩

theorem answered_encoded {build : Build} {decoder : HuffTable} {lengths : List ℕ} {bitstream : InfBS}
    (hmade : Made build decoder lengths) (hlow : bitstream.bits < 2 ^ bitstream.size)
    (hready : bitstream.size < 8 ∨ (encoded lengths decoder).Waits bitstream) :
    (encoded lengths decoder).Answered build bitstream := by
  obtain ⟨symbol, behind, tail, hpos, hword⟩ := hmade.complete.exists_codeWord bitstream.view
  have hmax := hmade.complete.short _ (lengthAt_mem hpos)
  have hmax15 : lengthAt lengths symbol ≤ 15 := hmax
  have hsize : bitstream.size < 8 + lengthAt lengths symbol := by
    rcases hready with hfew | hwaits
    · omega
    · have := not_within_buffer hmade.complete.kraftLe hpos hword hwaits
      omega
  rcases enters_loop decoder hlow with hnil | ⟨entered, hread, hloads, hentered⟩
  · have hlength := congrArg List.length hnil
    rw [InfBS.length_view, List.length_nil] at hlength
    have hinput : bitstream.input = [] := List.length_eq_zero_iff.mp (by omega)
    have hread : bitstream.readEncodedBits decoder = .ok (none, bitstream) := by
      rw [InfBS.readEncodedBits, if_pos (by omega), hinput]
    refine ⟨_, by rw [perform, hread]; rfl, ⟨⟨bitstream, InfBS.Loads.refl _, rfl⟩, hlow, ?_,
      fun _ ↦ ⟨hinput, List.prefix_refl _⟩, ?_, rfl⟩, fun _ ↦ ⟨symbol, codeWord lengths symbol, ?_, ?_⟩⟩
    · intro hdone; cases hdone
    · rintro number ⟨⟩
    · exact List.ne_nil_of_length_pos (by rw [length_codeWord]; exact hpos)
    · simp only [ReadOutcome.ofNumber, show bitstream.size = 0 by omega]
      rfl
  · obtain ⟨hview, hlow'⟩ := hloads.view hlow
    have htotal := congrArg List.length hview
    rw [InfBS.length_view, InfBS.length_view] at htotal
    obtain ⟨hlong, hshort⟩ := InfBS.readEncodedLoop_spec hmade.decodes hpos hmax behind tail
      entered.input entered.bits entered.size hlow' (hword.trans (by rw [← hview]))
    rcases le_or_gt (lengthAt lengths symbol) (entered.size + 8 * entered.input.length) with hle | hlt
    · obtain ⟨after, hloop, hafter, hlow'', hsmall⟩ := hlong hle
      clear hlong hshort
      obtain ⟨loaded, -, hcount, hinput, -, hmore⟩ := InfBS.loads_readEncodedLoop _ _ _ hloop
      have hlength := congrArg List.length hafter
      rw [InfBS.length_view, List.length_drop, InfBS.length_view, ← hinput] at hlength
      simp only at hlength hsmall
      have hall := hloads.trans (hmore (by omega))
      have hword' : codeWord lengths symbol = bitstream.view.take (lengthAt lengths symbol) := by
        have htake := congrArg (List.take (lengthAt lengths symbol)) hword
        rwa [List.take_left' (length_codeWord _ _),
          List.take_append_of_le_length (by rw [InfBS.length_view]; omega)] at htake
      refine ⟨.ofNumber (some symbol, after), by rw [perform, hread, hloop]; rfl,
        ⟨⟨loaded, hall, hinput⟩, hlow'', ?_, ?_, ?_, ?_⟩, ?_⟩
      · intro _
        simp only [ReadOutcome.ofNumber]
        omega
      · intro hfail; cases hfail
      · rintro number ⟨⟩
        exact hpos
      · simp only [padding, handedOut, ReadOutcome.ofNumber, Option.map_some, Option.getD_some,
          List.nil_append]
        rw [hafter, show (InfBS.mk entered.bits entered.size entered.input).view = bitstream.view from hview,
          hword', List.take_append_drop]
      · intro hfail; cases hfail
    · obtain ⟨after, hloop⟩ := hshort hlt
      obtain ⟨loaded, -, hcount, -, hnone, hmore⟩ := InfBS.loads_readEncodedLoop _ _ _ hloop
      obtain rfl := hnone rfl
      have hall := hloads.trans (hmore (by omega))
      obtain ⟨hview', hlow''⟩ := hall.view hlow
      have hinput := ((InfBS.suspendable_readEncodedBits decoder).suspend _ _ [] (hread.trans hloop)).1
      refine ⟨.ofNumber (none, loaded), by rw [perform, hread, hloop]; rfl,
        ⟨⟨loaded, hall, rfl⟩, hlow'', ?_, fun _ ↦ ⟨hinput, buffer_prefix hview' hinput⟩, ?_, hview'⟩,
        fun _ ↦ ?_⟩
      · intro hdone; cases hdone
      · rintro number ⟨⟩
      · -- the code word is longer than all that was delivered
        have hbuffer : bitsOf loaded.size loaded.bits = bitstream.view := by
          rw [← hview', InfBS.view, hinput, bytesBits_nil, List.append_nil]
        obtain ⟨missing, hmissing⟩ : bitstream.view <+: codeWord lengths symbol :=
          List.prefix_of_prefix_length_le ⟨tail, hword.symm⟩ (List.prefix_append _ _) (by
            rw [InfBS.length_view, length_codeWord]; omega)
        refine ⟨symbol, missing, ?_, hbuffer ▸ hmissing⟩
        rintro rfl
        have := congrArg List.length hmissing
        rw [List.append_nil, InfBS.length_view, length_codeWord] at this
        omega

/-- Every valid read, at the beginning or repeated. -/
theorem Valid.answered {build : Build} {r : BitRead} {bitstream : InfBS} (h : r.Valid build bitstream)
    (hlow : bitstream.bits < 2 ^ bitstream.size)
    (hready : bitstream.size < 8 ∨ r.Waits bitstream) : r.Answered build bitstream := by
  cases r with
  | bits count => exact answered_bits build h hlow hready
  | encoded lengths decoder => exact answered_encoded h hlow hready
  | dword => exact answered_dword build hlow hready
  | bytes count => exact answered_bytes build count hlow h

/-- Input does not end the wait of a failed read. -/
theorem Waits.facing {r : BitRead} {bitstream : InfBS} (h : r.Waits bitstream) (input : List UInt8) :
    r.Waits (bitstream.facing input) := by
  cases r <;> exact h

theorem Waits.repeated {failed r : BitRead} {bitstream : InfBS} (h : failed.Waits bitstream)
    (hrepeats : failed.Repeats r) : r.Waits bitstream := by
  cases failed with
  | bytes count =>
    cases r with
    | bytes count' => exact h
    | bits | encoded | dword => cases hrepeats
  | bits | encoded | dword => exact (show _ = r from hrepeats) ▸ h

end BitRead

/-! ### Whole sessions -/

section Sessions

variable {build : Build} {s : BitSession}

/-- A read that is allowed is answered. -/
theorem BitSession.Allows.answered {r : BitRead} (hallowed : s.Allows build r) (h : s.Balanced)
    (hwaits : ∀ failed ∈ s.pending, failed.Waits s.bitstream) : r.Answered build s.bitstream := by
  refine hallowed.valid.answered h.low ?_
  cases hpending : s.pending with
  | none => exact .inl (h.small hpending)
  | some failed =>
    exact .inr ((hwaits failed hpending).repeated (hallowed.repeats failed hpending))

/-- While a read is pending, the buffer is as it left it. -/
theorem BitRun.waits (h : BitRun build s) :
    s.Balanced ∧ ∀ failed ∈ s.pending, failed.Waits s.bitstream := by
  induction h with
  | fresh => exact ⟨⟨Nat.one_pos, fun _ ↦ by norm_num [BitSession.fresh], rfl⟩, by rintro failed ⟨⟩⟩
  | deliver piece h ih =>
    obtain ⟨hbalanced, hwaits⟩ := ih
    refine ⟨⟨hbalanced.low, hbalanced.small, ?_⟩, fun failed hfailed ↦ (hwaits failed hfailed).facing _⟩
    simp only [InfBS.facing, bytesBits_append]
    rw [← hbalanced.account, List.append_assoc _ (bytesBits _) (bytesBits _)]
  | @read s r o h hallowed hperform ih =>
    obtain ⟨hbalanced, hwaits⟩ := ih
    obtain ⟨o', hperform', hfair, hwaits'⟩ := hallowed.answered hbalanced hwaits
    cases hperform.symm.trans hperform'
    refine ⟨⟨hfair.low, fun hnone ↦ hfair.small ?_, ?_⟩, fun failed hfailed ↦ ?_⟩
    · by_contra hfail
      rw [if_neg hfail] at hnone
      cases hnone
    · have haccount := hbalanced.account
      rw [List.append_assoc] at haccount
      have hbefore : s.handedOut ++ s.bitstream.view = bytesBits s.delivered := haccount
      rw [← hbefore, ← hfair.account, InfBS.view]
      simp only [List.append_assoc]
    · cases hcomplete : o.complete with
      | true => simp only [hcomplete, if_true] at hfailed; cases hfailed
      | false =>
        simp only [hcomplete, Bool.false_eq_true, if_false] at hfailed
        cases hfailed
        exact hwaits' hcomplete

/-- Whatever the reads and the pieces of the input: the accounts balance after every read, and every
read that is allowed takes place without a fault, loads within the 32 bits of the buffer, leaves fewer
than 8 bits where it succeeds, and every bit loaded where it fails. -/
theorem bitRun_accounts (build : Build) {s : BitSession} (h : BitRun build s) :
    s.Balanced ∧ ∀ r, s.Allows build r →
      ∃ o, r.perform build s.bitstream = .ok o ∧ r.Fair s.bitstream o := by
  obtain ⟨hbalanced, hwaits⟩ := h.waits
  refine ⟨hbalanced, fun r hallowed ↦ ?_⟩
  obtain ⟨o, hperform, hfair, -⟩ := hallowed.answered hbalanced hwaits
  exact ⟨o, hperform, hfair⟩

end Sessions

/-- Three bits read from a byte, and a read of fourteen bits that fails. -/
theorem bitRun_accounts_byte :
    (BitSession.mk ⟨0x1A, 5, []⟩ [0xD5] [true, false, true] (some (.bits 14))).Balanced ∧
      ∀ r, (BitSession.mk ⟨0x1A, 5, []⟩ [0xD5] [true, false, true] (some (.bits 14))).Allows
          ⟨false, none⟩ r →
        ∃ o, r.perform ⟨false, none⟩ ⟨0x1A, 5, []⟩ = .ok o ∧ r.Fair ⟨0x1A, 5, []⟩ o := by
  have hfirst : BitRun ⟨false, none⟩ ⟨⟨0x1A, 5, []⟩, [0xD5], [true, false, true], none⟩ :=
    BitRun.read (BitRun.deliver [0xD5] BitRun.fresh)
      (r := .bits 3) (o := ⟨true, some 5, [], ⟨0x1A, 5, []⟩⟩)
      ⟨show 3 ≤ 14 by norm_num, by rintro failed ⟨⟩⟩ rfl
  exact bitRun_accounts ⟨false, none⟩ (BitRun.read hfirst
    (r := .bits 14) (o := ⟨false, none, [], ⟨0x1A, 5, []⟩⟩)
    ⟨show 14 ≤ 14 by norm_num, by rintro failed ⟨⟩⟩ rfl)

end ZephyrThrift.Muzic
