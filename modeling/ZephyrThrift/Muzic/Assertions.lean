import ZephyrThrift.Muzic.BlockDecoding
import ZephyrThrift.Muzic.ControlFlow
import ZephyrThrift.Muzic.Orderly
import ZephyrThrift.Muzic.RunLengths

/-!
# Which assertions can fail

In one call on a whole buffer, every assertion of the decoder but one holds whatever the buffer holds:
the bit buffer never has more than 39 bits (`bufferLaw_size`), the code lengths of a header are at
most 15 whether or not they are a prefix code (`Gathering`), and a subtable always fits, also for code
lengths that use up more than the code space. The exception is the assertion on a distance, which
fails for the longest distance of the format (`inflate_assertFree_iff`).
-/

set_option autoImplicit false
set_option relaxedAutoImplicit false

namespace ZephyrThrift.Muzic

open Foundation

/-! ### Computations without a failed assertion -/

/-- A fault that an assertion reports: one of the modelled conditions is false, or a reader is given
no decoder, which it asserts not to be. -/
def Fault.Asserted (fault : Fault) : Prop := fault = .assertion ∨ fault = .unsetPointer

instance (fault : Fault) : Decidable fault.Asserted := inferInstanceAs (Decidable (_ ∨ _))

/-- The computation does not end in a failed assertion. -/
def AssertFree {α : Type} (x : Except Fault α) : Prop := ∀ fault, x = .error fault → ¬ fault.Asserted

section Rules

variable {α β : Type}

theorem assertFree_ok (a : α) : AssertFree (.ok a) := fun _ h ↦ by cases h

theorem assertFree_error {fault : Fault} (h : ¬ fault.Asserted) :
    AssertFree (.error fault : Except Fault α) := fun _ heq ↦ by cases heq; exact h

theorem assertFree_of_eq {x : Except Fault α} {a : α} (h : x = .ok a) : AssertFree x :=
  h ▸ assertFree_ok a

theorem AssertFree.error {x : Except Fault α} {fault : Fault} (h : AssertFree x)
    (hx : x = .error fault) : AssertFree (.error fault : Except Fault β) :=
  assertFree_error (h fault hx)

theorem AssertFree.bind {x : Except Fault α} {f : α → Except Fault β} (hx : AssertFree x)
    (hf : ∀ a, x = .ok a → AssertFree (f a)) : AssertFree (x >>= f) := by
  cases x with
  | error fault => exact hx.error rfl
  | ok a => exact hf a rfl

theorem assertFree_assert (build : Build) {condition : Bool} (h : condition = true) :
    AssertFree (build.assert condition) :=
  assertFree_of_eq (h ▸ Build.assert_true build)

end Rules

/-! ### The readers of the bit buffer -/

namespace InfBS

theorem assertFree_loadByte (bits size : ℕ) (byte : UInt8) : AssertFree (loadByte bits size byte) := by
  rw [loadByte]
  split
  · exact assertFree_ok _
  · exact assertFree_error (by decide)

theorem assertFree_loadUpTo (count : ℕ) (input : List UInt8) :
    ∀ bits size, AssertFree (loadUpTo count bits size input) := by
  induction input with
  | nil => exact fun _ _ ↦ assertFree_ok _
  | cons byte input ih =>
    intro bits size
    rw [loadUpTo]
    split
    · split
      · next hload => exact (assertFree_loadByte _ _ _).error hload
      · exact ih _ _
    · exact assertFree_ok _

/-- Loading up to at most 32 bits shifts no byte too far. -/
theorem exists_loadUpTo {count : ℕ} (hcount : count ≤ 32) (input : List UInt8) :
    ∀ bits size, ∃ enough after, loadUpTo count bits size input = .ok (enough, after) := by
  induction input with
  | nil => exact fun bits size ↦ ⟨_, _, rfl⟩
  | cons byte input ih =>
    intro bits size
    rw [loadUpTo]
    split
    · rw [loadByte, if_pos (by omega)]
      exact ih _ _
    · exact ⟨_, _, rfl⟩

theorem exists_readBits {count : ℕ} (hcount : count ≤ 32) (bitstream : InfBS) :
    ∃ result, bitstream.readBits count = .ok result := by
  obtain ⟨enough, after, hload⟩ := exists_loadUpTo hcount bitstream.input bitstream.bits bitstream.size
  simp only [readBits, hload]
  cases enough <;> exact ⟨_, rfl⟩

theorem assertFree_readBits (count : ℕ) (bitstream : InfBS) : AssertFree (bitstream.readBits count) := by
  rw [readBits]
  split
  · next hload => exact (assertFree_loadUpTo _ _ _ _).error hload
  · exact assertFree_ok _
  · exact assertFree_ok _

theorem assertFree_infHuffDecode (table : HuffTable) (bits : ℕ) :
    AssertFree (infHuffDecode table bits) := by
  simp only [infHuffDecode, HuffTable.get]
  split
  · exact assertFree_ok _
  · split
    · exact assertFree_ok _
    · exact assertFree_error (by decide)

theorem assertFree_takeCode (data : InfHuff) (bitstream : InfBS) :
    AssertFree (takeCode data bitstream) := by
  simp only [takeCode, dropBits]
  split
  · next hdrop =>
    split at hdrop
    · cases hdrop
    · cases hdrop; exact assertFree_error (by decide)
  · exact assertFree_ok _

theorem assertFree_readEncodedLoop (table : HuffTable) (input : List UInt8) :
    ∀ bits size, AssertFree (readEncodedLoop table bits size input) := by
  induction input with
  | nil =>
    intro bits size
    rw [readEncodedLoop_eq]
    split
    · next hdecode => exact (assertFree_infHuffDecode _ _).error hdecode
    · split
      · exact assertFree_ok _
      · exact assertFree_takeCode _ _
  | cons byte input ih =>
    intro bits size
    rw [readEncodedLoop_eq]
    split
    · next hdecode => exact (assertFree_infHuffDecode _ _).error hdecode
    · split
      · simp only
        split
        · next hload => exact (assertFree_loadByte _ _ _).error hload
        · exact ih _ _
      · exact assertFree_takeCode _ _

theorem assertFree_readEncodedBits (table : HuffTable) (bitstream : InfBS) :
    AssertFree (bitstream.readEncodedBits table) := by
  rw [readEncodedBits]
  split
  · split
    · exact assertFree_ok _
    · split
      · next hload => exact (assertFree_loadByte _ _ _).error hload
      · exact assertFree_readEncodedLoop _ _ _ _
  · exact assertFree_readEncodedLoop _ _ _ _

/-- With at most 39 bits in the buffer, the loading loop stops at 32. -/
theorem assertFree_readDWord (build : Build) {bitstream : InfBS}
    (hlow : bitstream.bits < 2 ^ bitstream.size) (hsize : bitstream.size ≤ 39) :
    AssertFree (bitstream.readDWord build) := by
  obtain ⟨after, hload, hloaded, henough⟩ := loadUpTo_spec 32 bitstream.input
    (bitstream.bits >>> (bitstream.size % 8)) (bitstream.size - bitstream.size % 8)
    (shiftRight_low hlow _) (.inr ⟨rfl, by omega⟩)
  simp only [readDWord, hload]
  split
  · next hnone => cases hnone
  · exact assertFree_ok _
  · next hall =>
    injection hall with hall
    injection hall with hdecide hafter
    subst hafter
    have hle := henough (of_decide_eq_true hdecide)
    have haligned := hloaded.aligned
    have hsize' := hloaded.size
    simp only at haligned hsize'
    have hfull : (after.size == 32) = true := beq_iff_eq.mpr (by omega)
    rw [hfull, Build.assert_true]
    exact assertFree_ok _

end InfBS

/-- No reader leaves more than 39 bits in the buffer. -/
theorem bufferLaw_size (build : Build) : BufferLaw build fun _ size ↦ size ≤ 39 := by
  refine BufferMoves.law ⟨fun {bits size loaded byte} _ hload ↦ ?_, fun count h ↦ ?_,
    Nat.zero_le 39⟩ build
  · rw [InfBS.loadByte] at hload
    split at hload
    · omega
    · cases hload
  · exact (Nat.sub_le _ _).trans h

/-! ### Tables of any code lengths -/

section Tables

variable (build : Build)

theorem assertFree_reverseAt (index : ℕ) : AssertFree (reverseAt index) := by
  rw [reverseAt]
  split
  · exact assertFree_ok _
  · exact assertFree_error (by decide)

theorem HuffTable.assertFree_set (table : HuffTable) (index : ℕ) (data : InfHuff) :
    AssertFree (table.set index data) := by
  rw [HuffTable.set]
  split
  · exact assertFree_ok _
  · exact assertFree_error (by decide)

theorem assertFree_fillLoop (base tableSize known unknownStep : ℕ) (data : InfHuff) (fuel : ℕ) :
    ∀ (unknownBits : ℕ) (table : HuffTable),
      AssertFree (fillLoop base tableSize known unknownStep data fuel unknownBits table) := by
  induction fuel with
  | zero => exact fun _ _ ↦ assertFree_ok _
  | succ fuel ih =>
    intro unknownBits table
    rw [fillLoop]
    split
    · split
      · next hset => exact (table.assertFree_set _ _).error hset
      · exact ih _ _
    · exact assertFree_ok _

theorem reverseAt_lt {index reversed : ℕ} (h : reverseAt index = .ok reversed) : reversed < 256 := by
  have hall : ∀ reversed ∈ infReverse, reversed < 256 := by decide +kernel
  rw [reverseAt] at h
  split at h
  · next hentry =>
    cases h
    exact hall _ (List.mem_of_getElem? hentry)
  · cases h

/-- Two reversed bytes, cut to a length of at most 16, fit into this length. -/
theorem assertFree_infHuffFillTable (table : HuffTable) (base tableSize huffman byte : ℕ)
    {huffmanLength discardedBits : ℕ} (hlength : huffmanLength ≤ maxCodeLength)
    (hdiscarded : discardedBits < huffmanLength) :
    AssertFree (infHuffFillTable build table base tableSize huffman huffmanLength byte
      discardedBits) := by
  refine (assertFree_reverseAt _).bind fun low hlow ↦ (assertFree_reverseAt _).bind fun high hhigh ↦
    AssertFree.bind (assertFree_assert build ?_) fun _ _ ↦ assertFree_fillLoop _ _ _ _ _ _ _ _
  have hlow := reverseAt_lt hlow
  have hhigh := reverseAt_lt hhigh
  have hjoined : (low <<< 8) ||| high < 2 ^ 16 := by
    refine Nat.or_lt_two_pow ?_ (hhigh.trans (by norm_num))
    rw [Nat.shiftLeft_eq]
    omega
  have hcut := InfBS.shiftRight_low hjoined (16 - huffmanLength)
  rw [maxCodeLength] at hlength
  rw [show 16 - (16 - huffmanLength) = huffmanLength by omega] at hcut
  simp only [Nat.one_shiftLeft, hdiscarded, hcut, decide_true, Bool.and_self]

theorem assertFree_fillMainTable (chain : List InfSymlen) :
    ∀ (huffman : ℕ) (table : HuffTable), Ascends 1 chain →
      AssertFree (fillMainTable build table huffman chain) := by
  induction chain with
  | nil => exact fun _ _ _ ↦ assertFree_ok _
  | cons element chain ih =>
    intro huffman table hchain
    have hmax := hchain.longest element List.mem_cons_self
    have hpositive := hchain.shortest element List.mem_cons_self
    rw [fillMainTable]
    split
    · split
      · next hfill =>
        exact (assertFree_infHuffFillTable build table _ _ _ _ hmax hpositive).error hfill
      · exact ih _ _ hchain.tail
    · exact assertFree_ok _

theorem fillLoop_entries {base tableSize known unknownStep : ℕ} {data : InfHuff} {table' : HuffTable}
    (fuel : ℕ) :
    ∀ (unknownBits : ℕ) (table : HuffTable),
      fillLoop base tableSize known unknownStep data fuel unknownBits table = .ok table' →
        ∀ i, table' i = table i ∨ table' i = data := by
  induction fuel with
  | zero => intro unknownBits table h i; cases h; exact .inl rfl
  | succ fuel ih =>
    intro unknownBits table h i
    rw [fillLoop] at h
    split at h
    · rw [HuffTable.set] at h
      split at h
      · cases h
      · next hset =>
        split at hset
        · cases hset
          rcases ih _ _ h i with hold | hnew
          · split at hold
            · exact .inr hold
            · exact .inl hold
          · exact .inr hnew
        · cases hset
    · cases h; exact .inl rfl

/-- Where the loop over the short lengths ends: behind it are the longer lengths, and the entries
written are those of its elements. -/
theorem fillMainTable_ok {table' : HuffTable} {huffman' : ℕ} {late : List InfSymlen}
    (chain : List InfSymlen) :
    ∀ (start huffman : ℕ) (table : HuffTable), Ascends 1 chain → StartsAt start huffman chain →
      2 ^ 7 ∣ start → fillMainTable build table huffman chain = .ok (table', huffman', late) →
        ∃ early start', chain = early ++ late ∧ Ascends 9 late ∧ StartsAt start' huffman' late ∧
          2 ^ 7 ∣ start' ∧ ∀ i, table' i = table i ∨
            ∃ element ∈ early, table' i = InfHuff.value element.huffmanLength element.symbol := by
  induction chain with
  | nil =>
    intro start huffman table _ hstarts hdvd h
    cases h
    exact ⟨[], start, rfl, ⟨.nil, by simp, by simp⟩, hstarts, hdvd, fun _ ↦ .inl rfl⟩
  | cons element chain ih =>
    intro start huffman table hchain hstarts hdvd h
    rw [fillMainTable] at h
    split at h
    · next hshort =>
      split at h
      · cases h
      · next filled hfill =>
        have hdvd' : 2 ^ 7 ∣ start + 2 ^ (maxCodeLength - element.huffmanLength) :=
          dvd_add hdvd (pow_dvd_pow 2 (by simp only [maxCodeLength]; omega))
        obtain ⟨early, start', hsplit, hlate, hnext, haligned, hentries⟩ :=
          ih _ _ _ hchain.tail (hstarts.advance hchain) hdvd' h
        refine ⟨element :: early, start', by rw [hsplit, List.cons_append], hlate, hnext, haligned,
          fun i ↦ ?_⟩
        rcases hentries i with hold | ⟨other, hother, hnew⟩
        · obtain ⟨_, _, hfill⟩ := bind_ok hfill
          obtain ⟨_, _, hfill⟩ := bind_ok hfill
          obtain ⟨_, _, hfill⟩ := bind_ok hfill
          rcases fillLoop_entries _ _ _ hfill i with hkept | hwritten
          · exact .inl (hold.trans hkept)
          · exact .inr ⟨element, List.mem_cons_self, hold.trans hwritten⟩
        · exact .inr ⟨other, List.mem_cons_of_mem _ hother, hnew⟩
    · next hlong =>
      cases h
      exact ⟨[], start, rfl, hchain.long hlong, hstarts, hdvd, fun _ ↦ .inl rfl⟩

theorem assertFree_fillSubtable (base subtableSize : ℕ) (members : List InfSymlen) :
    ∀ (huffman : ℕ) (table : HuffTable),
      (∀ element ∈ members, 8 < element.huffmanLength ∧ element.huffmanLength ≤ maxCodeLength) →
        AssertFree (fillSubtable build base subtableSize table huffman members) := by
  induction members with
  | nil => exact fun _ _ _ ↦ assertFree_ok _
  | cons element members ih =>
    intro huffman table hmembers
    obtain ⟨⟨hlong, hmax⟩, hrest⟩ := List.forall_mem_cons.mp hmembers
    rw [fillSubtable]
    split
    · next hfill => exact (assertFree_infHuffFillTable build table _ _ _ _ hmax hlong).error hfill
    · exact ih _ _ hrest

/-- A subtable fits behind those before it, whether or not the code space is used up. -/
theorem assertFree_makeSubtables (fuel : ℕ) :
    ∀ (chain : List InfSymlen) (subtableIndex start huffman : ℕ) (table : HuffTable),
      Ascends 9 chain → StartsAt start huffman chain → (chain ≠ [] → 2 ^ 7 ∣ start) →
        Room subtableIndex chain →
          AssertFree (makeSubtables build fuel table subtableIndex huffman chain) := by
  induction fuel with
  | zero =>
    intro chain subtableIndex start huffman table _ _ _ _
    cases chain <;> exact assertFree_ok _
  | succ fuel ih =>
    intro chain subtableIndex start huffman table hchain hstarts hdvd hroom
    cases chain with
    | nil => exact assertFree_ok _
    | cons element next =>
      have hlong := hchain.shortest element List.mem_cons_self
      have hstart : start = start / 2 ^ 7 * 2 ^ 7 :=
        (Nat.div_mul_cancel (hdvd (List.cons_ne_nil _ _))).symm
      have hcell := hstarts.cell (by omega) (hchain.longest element List.mem_cons_self)
      have hspan := spanSubtable_spec (element :: next) start huffman _ (List.cons_ne_nil _ _) hchain
        hstarts rfl
      obtain ⟨hsize, hroomRest⟩ := hspan.room hchain hstart hroom
      rw [makeSubtables]
      simp only [hcell, Nat.one_shiftLeft]
      generalize spanSubtable (start / 2 ^ 7) huffman (element :: next) = span at *
      have hsplit := hspan.split
      rw [hsplit] at hchain
      refine AssertFree.bind (assertFree_assert build ?_) fun _ _ ↦
        (assertFree_reverseAt _).bind fun slot _ ↦ (table.assertFree_set _ _).bind fun referred _ ↦
          (assertFree_fillSubtable build _ _ _ _ _ fun member hmember ↦ ?_).bind fun filled _ ↦
            ih _ _ _ _ _ hchain.append_right hspan.starts (fun h ↦ ?_) hroomRest
      · exact decide_eq_true hsize
      · have hmem := List.mem_append_left span.remaining hmember
        have := hchain.shortest member hmem
        exact ⟨by omega, hchain.longest member hmem⟩
      · rw [hspan.full h]
        exact Dvd.intro_left _ rfl

/-- `infHuffMakeDecoder` on any sorted chain of a list. -/
theorem assertFree_infHuffMakeDecoder (table : HuffTable) {chain : List InfSymlen} (hne : chain ≠ [])
    (hchain : Ascends 1 chain) (hlength : chain.length ≤ 291) :
    AssertFree (infHuffMakeDecoder build table chain) := by
  refine AssertFree.bind (assertFree_assert build (decide_eq_true hne)) fun _ _ ↦ ?_
  rw [if_neg hne]
  refine (assertFree_fillMainTable build chain _ _ hchain).bind fun filled hfilled ↦ ?_
  obtain ⟨main, huffman, late⟩ := filled
  have hstarts : StartsAt 0 0 chain := by
    cases chain with
    | nil => exact trivial
    | cons element chain => exact (Nat.zero_mul _).symm
  obtain ⟨early, start, hsplit, hlate, hnext, hdvd, -⟩ :=
    fillMainTable_ok build chain 0 0 _ hchain hstarts (dvd_zero _) hfilled
  have hcount := congrArg List.length hsplit
  rw [List.length_append] at hcount
  exact assertFree_makeSubtables build _ _ _ start _ _ hlate hnext (fun _ ↦ hdvd)
    (room_of_ascends hlate (by omega))

/-- A table whose main part holds symbols only, and those of the code length alphabet. -/
structure FrontTable (table : HuffTable) : Prop where
  valid : ∀ i < 256, (table i).isvalid = true
  code_le : ∀ i < 256, (table i).code ≤ infLastValidLength

/-- Codes of at most eight bits need no subtable: an entry of the main part is that of one of them, or
says that there is no code. -/
theorem shortEntries_of_make {table table' : HuffTable} {chain : List InfSymlen}
    (hchain : Ascends 1 chain) (hshort : ∀ element ∈ chain, element.huffmanLength ≤ 8)
    (h : infHuffMakeDecoder build table chain = .ok table') :
    ∀ i < 256, table' i = InfHuff.value infInvalidLength 0 ∨
      ∃ element ∈ chain, table' i = InfHuff.value element.huffmanLength element.symbol := by
  obtain ⟨_, _, h⟩ := bind_ok h
  split at h
  · cases h
  obtain ⟨filled, hfilled, h⟩ := bind_ok h
  obtain ⟨main, huffman, late⟩ := filled
  have hstarts : StartsAt 0 0 chain := by
    cases chain with
    | nil => exact trivial
    | cons element chain => exact (Nat.zero_mul _).symm
  obtain ⟨early, start, hsplit, hlate, -, -, hentries⟩ :=
    fillMainTable_ok build chain 0 0 _ hchain hstarts (dvd_zero _) hfilled
  have hnone : late = [] := by
    cases late with
    | nil => rfl
    | cons element late =>
      have hlong := hlate.shortest element List.mem_cons_self
      have := hshort element (hsplit ▸ List.mem_append_right _ List.mem_cons_self)
      omega
  subst hnone
  cases h
  intro i hi
  rcases hentries i with hreset | ⟨element, hmem, hnew⟩
  · exact .inl (hreset.trans (if_pos hi))
  · exact .inr ⟨element, hsplit ▸ List.mem_append_left _ hmem, hnew⟩

theorem frontTable_of_make {table table' : HuffTable} {chain : List InfSymlen}
    (hchain : Ascends 1 chain)
    (hshort : ∀ element ∈ chain, element.huffmanLength ≤ 8 ∧ element.symbol ≤ infLastValidLength)
    (h : infHuffMakeDecoder build table chain = .ok table') : FrontTable table' := by
  have hentry := shortEntries_of_make build hchain (fun element hmem ↦ (hshort element hmem).1) h
  refine ⟨fun i hi ↦ ?_, fun i hi ↦ ?_⟩
  · rcases hentry i hi with hreset | ⟨element, -, hnew⟩
    · rw [hreset]; rfl
    · rw [hnew]; rfl
  · rcases hentry i hi with hreset | ⟨element, hmem, hnew⟩
    · rw [hreset]; exact Nat.zero_le _
    · rw [hnew]; exact (hshort element hmem).2

end Tables

/-- A reader with such a table takes symbols of the code length alphabet. -/
theorem FrontTable.readEncodedBits {table : HuffTable} (h : FrontTable table)
    {bitstream after : InfBS} {command : ℕ}
    (hread : bitstream.readEncodedBits table = .ok (some command, after)) :
    command ≤ infLastValidLength := by
  have htake : ∀ {bits : ℕ} {data : InfHuff} {bitstream : InfBS},
      infHuffDecode table bits = .ok data →
        InfBS.takeCode data bitstream = .ok (some command, after) →
          command ≤ infLastValidLength := by
    intro bits data bitstream hdecode htake
    have hlt := Nat.mod_lt bits (show 256 > 0 by norm_num)
    simp only [infHuffDecode, h.valid _ hlt, if_true] at hdecode
    cases hdecode
    rw [InfBS.takeCode] at htake
    split at htake
    · cases htake
    · cases htake
      exact h.code_le _ hlt
  have hloop : ∀ (input : List UInt8) (bits size : ℕ),
      InfBS.readEncodedLoop table bits size input = .ok (some command, after) →
        command ≤ infLastValidLength := by
    intro input
    induction input with
    | nil =>
      intro bits size hread
      rw [InfBS.readEncodedLoop_eq] at hread
      split at hread
      · cases hread
      · next hdecode =>
        split at hread
        · cases hread
        · exact htake hdecode hread
    | cons byte input ih =>
      intro bits size hread
      rw [InfBS.readEncodedLoop_eq] at hread
      split at hread
      · cases hread
      · next hdecode =>
        split at hread
        · simp only at hread
          split at hread
          · cases hread
          · exact ih _ _ hread
        · exact htake hdecode hread
  rw [InfBS.readEncodedBits] at hread
  split at hread
  · split at hread
    · cases hread
    · split at hread
      · cases hread
      · exact hloop _ _ _ hread
  · exact hloop _ _ _ hread

/-! ### Lists of any code lengths -/

/-- The lengths of the symbols from 0 on were added to the list: at most 15 each, a prefix code or
not. What is pending is a command of the code length alphabet and a length of at most 15. -/
structure Gathering (list : InfSLList) (lengths : List ℕ) : Prop where
  represents : Represents list (presentCodes lengths)
  symbol : list.symbol = lengths.length
  lengths_le : ∀ length ∈ lengths, length ≤ maxCodeLength
  length_le : list.huffmanLength ≤ maxCodeLength
  command_le : list.command ≤ infLastValidLength

theorem InfSLList.Fresh.gathering {list : InfSLList} (h : list.Fresh) : Gathering list [] where
  represents := h.represents
  symbol := h.symbol
  lengths_le := by simp
  length_le := h.huffmanLength ▸ Nat.zero_le _
  command_le := h.command ▸ Nat.zero_le _

theorem Gathering.restarted {list : InfSLList} {lengths : List ℕ} (h : Gathering list lengths)
    (elements : ℕ → InfSymlen) : Gathering (list.restarted false elements) [] where
  represents := represents_restarted list false elements
  symbol := rfl
  lengths_le := by simp
  length_le := h.length_le
  command_le := h.command_le

theorem Gathering.repeating {list : InfSLList} {lengths : List ℕ} (h : Gathering list lengths)
    (count : ℕ) {length : ℕ} (hlength : length ≤ maxCodeLength) :
    Gathering (list.repeating count length) lengths where
  represents := h.represents.congr rfl rfl rfl rfl
  symbol := h.symbol
  lengths_le := h.lengths_le
  length_le := hlength
  command_le := Nat.zero_le _

/-- The pending repetitions move to the lengths added. -/
theorem Gathering.addRepetitions (build : Build) {list : InfSLList} {lengths : List ℕ}
    (h : Gathering list lengths) {numberOfSymlens : ℕ}
    (hmax : numberOfSymlens ≤ infLastValidSymbol + 1) (hle : lengths.length ≤ numberOfSymlens) :
    ∃ list' lengths', Muzic.addRepetitions build numberOfSymlens numberOfSymlens list = .ok list' ∧
      Gathering list' lengths' ∧ lengths'.length ≤ numberOfSymlens ∧
      RepetitionsAdded numberOfSymlens list list' := by
  obtain ⟨list', hadd, hrep, hcommand, hlength, hsymbol, -⟩ :=
    addRepetitions_eq build hmax numberOfSymlens list lengths h.represents h.symbol
      (h.length_le.trans (by decide)) (by omega)
  refine ⟨list', _, hadd, ⟨hrep, ?_, ?_, hlength ▸ h.length_le, hcommand ▸ h.command_le⟩, ?_,
    addRepetitions_spec numberOfSymlens list (by omega) hadd⟩
  · rw [hsymbol, h.symbol, List.length_append, List.length_replicate]
  · intro length hmem
    rcases List.mem_append.mp hmem with hold | hnew
    · exact h.lengths_le length hold
    · rw [List.eq_of_mem_replicate hnew]
      exact h.length_le
  · rw [List.length_append, List.length_replicate]
    omega

section Readers

variable {list list' : InfSLList} {lengths : List ℕ} {complete : Bool} {bitstream after : InfBS}

theorem assertFree_readRepetitions (extraBits base length : ℕ) :
    AssertFree (readRepetitions list bitstream extraBits base length) := by
  rw [readRepetitions]
  split
  · next hread => exact (InfBS.assertFree_readBits _ _).error hread
  · exact assertFree_ok _
  · exact assertFree_ok _

theorem Gathering.readRepetitions (h : Gathering list lengths) {extraBits base length : ℕ}
    (hlength : length ≤ maxCodeLength)
    (hread : Muzic.readRepetitions list bitstream extraBits base length =
      .ok (complete, list', after)) : Gathering list' lengths := by
  rw [Muzic.readRepetitions] at hread
  split at hread
  · cases hread
  · cases hread; exact h
  · cases hread; exact h.repeating _ hlength

theorem assertFree_runCommand : AssertFree (runCommand list bitstream) := by
  rw [runCommand]
  split
  · exact assertFree_readRepetitions _ _ _
  · exact assertFree_readRepetitions _ _ _
  · exact assertFree_readRepetitions _ _ _
  · exact assertFree_ok _

/-- A command repeats the last length, zeros, or its own length. -/
theorem Gathering.runCommand (h : Gathering list lengths)
    (hrun : Muzic.runCommand list bitstream = .ok (complete, list', after)) :
    Gathering list' lengths := by
  by_cases h16 : list.command = 16
  · simp only [Muzic.runCommand, h16] at hrun
    exact h.readRepetitions h.length_le hrun
  by_cases h17 : list.command = 17
  · simp only [Muzic.runCommand, h17] at hrun
    exact h.readRepetitions (Nat.zero_le _) hrun
  by_cases h18 : list.command = 18
  · simp only [Muzic.runCommand, h18] at hrun
    exact h.readRepetitions (Nat.zero_le _) hrun
  rw [runCommand_default bitstream h16 h17 h18] at hrun
  cases hrun
  refine h.repeating 1 ?_
  have hcommand := h.command_le
  simp only [infLastValidLength] at hcommand
  simp only [maxCodeLength]
  omega

theorem assertFree_readCommand (table : HuffTable) : AssertFree (readCommand table list bitstream) := by
  rw [readCommand]
  split
  · split
    · next hread => exact (InfBS.assertFree_readEncodedBits _ _).error hread
    · exact assertFree_ok _
    · exact assertFree_runCommand
  · exact assertFree_runCommand

theorem Gathering.readCommand (h : Gathering list lengths) {table : HuffTable}
    (htable : FrontTable table)
    (hread : Muzic.readCommand table list bitstream = .ok (complete, list', after)) :
    Gathering list' lengths := by
  rw [Muzic.readCommand] at hread
  split at hread
  · split at hread
    · cases hread
    · cases hread; exact h
    · next command middle hcode =>
      have hpending : Gathering { list with command := command } lengths :=
        ⟨h.represents.congr rfl rfl rfl rfl, h.symbol, h.lengths_le, h.length_le,
          htable.readEncodedBits hcode⟩
      exact hpending.runCommand hread
  · exact h.runCommand hread

/-- The outer loop keeps what it gathers within the ranges of the assertions. -/
theorem Gathering.encodedSymlensLoop (build : Build) {table : HuffTable} (htable : FrontTable table)
    {numberOfSymlens : ℕ} (hmax : numberOfSymlens ≤ infLastValidSymbol + 1) (fuel : ℕ) :
    ∀ (list : InfSLList) (lengths : List ℕ) (bitstream : InfBS), Gathering list lengths →
      lengths.length ≤ numberOfSymlens →
        AssertFree (Muzic.encodedSymlensLoop build numberOfSymlens table fuel list bitstream) ∧
        ∀ complete list' after,
          Muzic.encodedSymlensLoop build numberOfSymlens table fuel list bitstream =
            .ok (complete, list', after) →
              ∃ lengths', Gathering list' lengths' ∧ lengths'.length ≤ numberOfSymlens := by
  induction fuel with
  | zero =>
    intro list lengths bitstream _ _
    exact ⟨assertFree_error (by decide), fun _ _ _ hloop ↦ by cases hloop⟩
  | succ fuel ih =>
    intro list lengths bitstream h hle
    rw [Muzic.encodedSymlensLoop]
    by_cases hmore : list.symbol < numberOfSymlens
    · obtain ⟨list₁, lengths₁, hadd, h₁, hle₁, hadded⟩ := h.addRepetitions build hmax hle
      simp only [if_pos hmore, hadd]
      by_cases hmore₁ : list₁.symbol < numberOfSymlens
      · have hassert : build.assert (list₁.repetitions == 0) = .ok () := by
          rw [hadded.done hmore₁]
          exact Build.assert_true build
        simp only [if_pos hmore₁, hassert]
        rcases hread : Muzic.readCommand table list₁ bitstream with fault | ⟨_ | _, list₂, after⟩
        · exact ⟨(assertFree_readCommand table).error hread, fun _ _ _ hloop ↦ by cases hloop⟩
        · refine ⟨assertFree_ok _, fun complete list' after hloop ↦ ?_⟩
          cases hloop
          exact ⟨lengths₁, h₁.readCommand htable hread, hle₁⟩
        · exact ih _ _ _ (h₁.readCommand htable hread) hle₁
      · simp only [if_neg hmore₁]
        refine ⟨assertFree_ok _, fun complete list' after hloop ↦ ?_⟩
        cases hloop
        exact ⟨lengths₁, h₁, hle₁⟩
    · rw [if_neg hmore]
      refine ⟨assertFree_ok _, fun complete list' after hloop ↦ ?_⟩
      cases hloop
      exact ⟨lengths, h, hle⟩

end Readers

/-- Some code lengths of the code length alphabet were read, three bits each, and none is in the list. -/
structure Sending (list : InfSLList) : Prop where
  represents : Represents list []
  symbol_le : list.symbol ≤ infSymlenSequenceSize
  lengths_le : ∀ i < list.symbol, list.lengthsBySymbol (symbolOrder.getD i 0) ≤ 7

theorem InfSLList.Fresh.sending {list : InfSLList} (h : list.Fresh) : Sending list :=
  ⟨h.represents, h.symbol ▸ Nat.zero_le _, fun i hi ↦ by rw [h.symbol] at hi; omega⟩

/-- Storing the next length. -/
theorem Sending.store {list : InfSLList} (h : Sending list) {length : ℕ} (hlength : length ≤ 7)
    (hmore : list.symbol < infSymlenSequenceSize) :
    Sending { list with
      lengthsBySymbol := Function.update list.lengthsBySymbol (symbolOrder.getD list.symbol 0) length
      symbol := list.symbol + 1 } := by
  refine ⟨h.represents.congr rfl rfl rfl rfl, hmore, fun i hi ↦ ?_⟩
  simp only at hi ⊢
  by_cases hsame : symbolOrder.getD i 0 = symbolOrder.getD list.symbol 0
  · rw [hsame, Function.update_self]
    exact hlength
  · rw [Function.update_of_ne hsame]
    refine h.lengths_le i (lt_of_le_of_ne (Nat.lt_succ_iff.mp hi) ?_)
    rintro rfl
    exact hsame rfl

theorem Sending.read3BitLengths (count : ℕ) :
    ∀ {list : InfSLList} (bitstream : InfBS), Sending list →
      list.symbol + count ≤ infSymlenSequenceSize →
        ∃ complete list' after, Muzic.read3BitLengths list bitstream count =
          .ok (complete, list', after) ∧ Sending list' := by
  induction count with
  | zero => exact fun bitstream h _ ↦ ⟨true, _, bitstream, rfl, h⟩
  | succ count ih =>
    intro list bitstream h hroom
    obtain ⟨⟨number, after⟩, hread⟩ := bitstream.exists_readBits (show 3 ≤ 32 by norm_num)
    simp only [Muzic.read3BitLengths, hread]
    cases number with
    | none => exact ⟨false, list, after, rfl, h⟩
    | some length =>
      have hlength := InfBS.readBits_lt hread
      exact ih after (h.store (by omega) (by omega)) (by simp only; omega)

theorem Sending.clear3BitLengths (count : ℕ) :
    ∀ {list : InfSLList}, Sending list → list.symbol + count ≤ infSymlenSequenceSize →
      Sending (Muzic.clear3BitLengths list count) ∧
        (Muzic.clear3BitLengths list count).symbol = list.symbol + count := by
  induction count with
  | zero => exact fun h _ ↦ ⟨h, rfl⟩
  | succ count ih =>
    intro list h hroom
    obtain ⟨hsending, hsymbol⟩ := ih (h.store (Nat.zero_le 7) (by omega)) (by simp only; omega)
    refine ⟨hsending, hsymbol.trans ?_⟩
    simp only
    omega

theorem symbolOrder_onto : ∀ symbol < infSymlenSequenceSize, ∃ i < infSymlenSequenceSize,
    symbolOrder.getD i 0 = symbol := by
  decide

/-- The code lengths of the code length alphabet are three bits each. -/
theorem Sending.add3BitSymlens (build : Build) {list : InfSLList} (h : Sending list)
    (bitstream : InfBS) {count : ℕ} (hcount : count ≤ infSymlenSequenceSize) :
    ∃ complete list' after, infSLListAdd3BitSymlens build list bitstream count =
        .ok (complete, list', after) ∧ (complete = false → Sending list') ∧
      (complete = true → list'.symbol = infSymlenSequenceSize ∧
        ∃ lengths, Represents list' (presentCodes lengths) ∧
          lengths.length = infSymlenSequenceSize ∧ ∀ length ∈ lengths, length ≤ 7) := by
  have hsymbol := h.symbol_le
  obtain ⟨complete, list₁, after, hread, h₁⟩ := h.read3BitLengths
    (min count infSymlenSequenceSize - list.symbol) bitstream (by omega)
  simp only [infSLListAdd3BitSymlens, hread]
  cases complete with
  | false => exact ⟨false, list₁, after, rfl, fun _ ↦ h₁, fun hdone ↦ by cases hdone⟩
  | true =>
    have hsymbol₁ := h₁.symbol_le
    obtain ⟨h₂, hsymbol₂⟩ := h₁.clear3BitLengths (infSymlenSequenceSize - list₁.symbol) (by omega)
    simp only
    generalize Muzic.clear3BitLengths list₁ _ = list₂ at h₂ hsymbol₂ ⊢
    have hle : ∀ symbol < 0 + infSymlenSequenceSize, list₂.lengthsBySymbol symbol ≤ 7 := by
      intro symbol hlt
      obtain ⟨i, hi, rfl⟩ := symbolOrder_onto symbol (by omega)
      exact h₂.lengths_le i (by omega)
    obtain ⟨list', hadd, hrep, hsame⟩ := add3BitLengths_spec build list₂.lengthsBySymbol
      infSymlenSequenceSize list₂ 0 rfl h₂.represents (by decide)
      fun symbol hlt ↦ (hle symbol hlt).trans (by decide)
    simp only [hadd]
    refine ⟨true, list', after, rfl, fun hdone ↦ (by cases hdone), fun _ ↦ ⟨?_, _, hrep, ?_, ?_⟩⟩
    · rw [hsame.symbol]
      omega
    · rw [List.length_map, List.length_range, Nat.zero_add]
    · intro length hmem
      obtain ⟨symbol, hlt, rfl⟩ := List.mem_map.mp hmem
      exact hle symbol (List.mem_range.mp hlt)

/-- Sorting code lengths runs past the lists where no symbol has a code, and gives a sorted chain
elsewhere. -/
theorem getSorted_cases {list : InfSLList} {lengths : List ℕ}
    (h : Represents list (presentCodes lengths)) (hlengths : ∀ length ∈ lengths, length ≤ maxCodeLength)
    (hle : lengths.length ≤ infLastValidSymbol + 1) (resetRepetitions : Bool) :
    infSLListGetSorted list resetRepetitions = .error .headPtrIndex ∨
      ∃ chain elements, infSLListGetSorted list resetRepetitions =
          .ok (chain, list.restarted resetRepetitions elements) ∧
        chain ≠ [] ∧ codesOf chain = sortedCodes lengths 1 maxCodeLength := by
  by_cases hcode : HasCode lengths
  · obtain ⟨chain, elements, hsorted, hcodes⟩ :=
      getSorted_spec h hlengths hcode hle resetRepetitions
    exact .inr ⟨chain, elements, hsorted, chain_ne_nil hcodes hlengths hcode, hcodes⟩
  · have hempty : Represents list [] := presentCodes_eq_nil hcode ▸ h
    exact .inl (infSLListGetSorted_empty hempty resetRepetitions)

/-- The two functions that every loader ends with. -/
theorem assertFree_sortAndMake (build : Build) (table : HuffTable) {list : InfSLList}
    {lengths : List ℕ} (h : Represents list (presentCodes lengths))
    (hlengths : ∀ length ∈ lengths, length ≤ maxCodeLength)
    (hle : lengths.length ≤ infLastValidSymbol + 1) (resetRepetitions : Bool) :
    infSLListGetSorted list resetRepetitions = .error .headPtrIndex ∨
      ∃ chain elements, infSLListGetSorted list resetRepetitions =
          .ok (chain, list.restarted resetRepetitions elements) ∧
        AssertFree (infHuffMakeDecoder build table chain) := by
  rcases getSorted_cases h hlengths hle resetRepetitions with
    hnone | ⟨chain, elements, hsorted, hne, hcodes⟩
  · exact .inl hnone
  · exact .inr ⟨chain, elements, hsorted, assertFree_infHuffMakeDecoder build table hne
      (ascends_of_codesOf hcodes) ((length_chain_le hcodes).trans hle)⟩

/-- The fixed decoders are made, or cached tables are taken for them, whatever these hold. -/
theorem makeFixedDecoders_ok (build : Build) (statics : Statics) {list : InfSLList} (h : list.Fresh) :
    ∃ literal list₁ distance list₂,
      infHuffMakeFixedLiteralDecoder build statics.cachedLiteral list = .ok (literal, list₁) ∧
      infHuffMakeFixedDistanceDecoder build statics.cachedDistance list₁ = .ok (distance, list₂) := by
  have hliteral : ∃ literal list₁, infHuffMakeFixedLiteralDecoder build statics.cachedLiteral list =
      .ok (literal, list₁) ∧ list₁.Fresh := by
    cases statics.cachedLiteral with
    | some table => exact ⟨table, list, rfl, h⟩
    | none =>
      obtain ⟨table, list₁, hmake, -, hfresh⟩ := infHuffMakeFixedLiteralDecoder_spec build
        (show CachedFor none fixedLiteralLengths from fun table hnone ↦ by cases hnone) h
      exact ⟨table, list₁, hmake, hfresh⟩
  obtain ⟨literal, list₁, hmake, hfresh⟩ := hliteral
  cases hcached : statics.cachedDistance with
  | some table => exact ⟨literal, list₁, table, list₁, hmake, rfl⟩
  | none =>
    obtain ⟨distance, list₂, hdistance, -, -⟩ := infHuffMakeFixedDistanceDecoder_spec build
      (show CachedFor none fixedDistanceLengths from fun table hnone ↦ by cases hnone) hfresh
    exact ⟨literal, list₁, distance, list₂, hmake, hdistance⟩

/-! ### The window ring -/

theorem assertFree_copyLoop (build : Build) (count : ℕ) :
    ∀ (sequencePtr : ℕ) {infbuf : InfOutbuf}, infbuf.ptr ≤ infOutbufSize →
      AssertFree (copyLoop build count sequencePtr infbuf) := by
  have hread : ∀ (infbuf : InfOutbuf) (offset : ℕ), AssertFree (readRing build infbuf offset) := by
    intro infbuf offset
    rw [readRing]
    split
    · exact assertFree_ok _
    · split
      · exact assertFree_ok _
      · exact assertFree_error (by decide)
  induction count with
  | zero => exact fun _ _ _ ↦ assertFree_ok _
  | succ count ih =>
    intro sequencePtr infbuf hptr
    rw [copyLoop]
    refine (hread _ _).bind fun c _ ↦ ?_
    rw [infOutbufPutc_eq build hptr]
    exact (hread _ _).bind fun _ _ ↦ (ih _ (ringPut_ptr_le _ _)).bind fun _ _ ↦ assertFree_ok _

theorem assertFree_infOutbufRead (build : Build) {infbuf : InfOutbuf} (hptr : infbuf.ptr ≤ infOutbufSize)
    (distance count : ℕ) : AssertFree (infOutbufRead build infbuf distance count) := by
  rw [infOutbufRead]
  split
  · split
    · exact assertFree_error (by decide)
    · simp only
      split
      · exact assertFree_ok _
      · split
        · exact assertFree_ok _
        · split
          · next hcopy =>
            exact (assertFree_copyLoop build _ _ (infOutbufWrite_ptr_le hptr _)).error hcopy
          · exact assertFree_ok _
  · split
    · next hcopy => exact (assertFree_copyLoop build _ _ hptr).error hcopy
    · exact assertFree_ok _

/-! ### The passes -/

/-- The steps of a compressed block behind its header. -/
def InCodes (step : InfStep) : Prop :=
  step ∈ [.processCompressedBlock, .readLiteralOrLength, .readLiteralOrLength2, .readLengthBits,
    .readDistance, .readDistanceBits, .outputSequence]

/-- How many code lengths a step of a dynamic header is to read. -/
def symlensOf (st : InfCore) : ℕ :=
  match st.step with
  | .loadFrontDecoder => ((st.symcount >>> 10) &&& 0x0F) + 4
  | .loadLiteralDecoder => (st.symcount &&& 0x1F) + 257
  | .loadDistanceDecoder => ((st.symcount >>> 5) &&& 0x1F) + 1
  | _ => 0

theorem symlensOf_le (st : InfCore) : symlensOf st ≤ infLastValidSymbol + 1 ∧
    (st.step = .loadFrontDecoder → symlensOf st ≤ infSymlenSequenceSize) := by
  have hfront : (st.symcount >>> 10) &&& 0x0F ≤ 15 := Nat.and_le_right
  have hliteral : st.symcount &&& 0x1F ≤ 31 := Nat.and_le_right
  have hdistance : (st.symcount >>> 5) &&& 0x1F ≤ 31 := Nat.and_le_right
  cases hstep : st.step <;>
    simp only [symlensOf, hstep, infLastValidSymbol, infSymlenSequenceSize] <;>
    exact ⟨by omega, fun hfront ↦ by first | omega | cases hfront⟩

/-- What the assertions need of the state that a pass finds: the ranges that direct the loop, at most
39 bits in the buffer and none in front of stored bytes; while a header is read, the lengths read so
far, however many repetitions are pending, and a table for the code length alphabet; and decoders behind
it. -/
structure Guarded (p : InfPass) : Prop where
  inRange : InRange (controlOf p)
  orderly : Orderly p.state
  size_le : p.state.size ≤ 39
  aligned : p.state.step = .outputUncompressedBlock → p.state.size = 0
  front : p.state.step = .loadFrontDecoder → Sending p.state.sllist
  gathers : p.state.step = .loadLiteralDecoder ∨ p.state.step = .loadDistanceDecoder →
    p.state.frontDecoder = some .huffmanTableA ∧ FrontTable p.state.huffmanTableA ∧
      ∃ lengths, Gathering p.state.sllist lengths ∧ lengths.length ≤ symlensOf p.state
  literalDecoder : p.state.step = .loadDistanceDecoder → p.state.literalDecoder = some .huffmanTableB
  decoders : InCodes p.state.step → AssertFree (p.state.decoder p.state.literalDecoder) ∧
    AssertFree (p.state.decoder p.state.distanceDecoder)

/-- The last distance symbol, with extra bits that are all ones: distance 32768. -/
def FarthestMatch (p : InfPass) : Prop :=
  p.state.step = .readDistanceBits ∧ p.state.literal = 29 ∧
    ∃ after, (bitstreamOf p).readBits 13 = .ok (some (2 ^ 13 - 1), after)

section Rules

variable {p : InfPass}

theorem assertFree_reading {α : Type} {read : Except Fault (Option α × InfBS)}
    {next : α → InfPass → Except Fault InfEffect} (hread : AssertFree read)
    (hnext : ∀ value after, read = .ok (some value, after) →
      AssertFree (next value (withBitstream p after))) : AssertFree (reading p read next) := by
  rw [reading.eq_def]
  split
  · exact hread.error rfl
  · exact assertFree_ok _
  · exact hnext _ _ rfl

theorem assertFree_listing {read : Except Fault (Bool × InfSLList × InfBS)}
    {next : InfPass → Except Fault InfEffect} (hread : AssertFree read)
    (hnext : ∀ list after, read = .ok (true, list, after) →
      AssertFree (next (withState (withBitstream p after) fun st ↦ { st with sllist := list }))) :
    AssertFree (listing p read next) := by
  rw [listing.eq_def]
  split
  · exact hread.error rfl
  · exact assertFree_ok _
  · exact hnext _ _ rfl

theorem assertFree_staticEntry (array : List ℕ) (index : ℕ) : AssertFree (staticEntry array index) := by
  rw [staticEntry]
  split
  · exact assertFree_ok _
  · exact assertFree_error (by decide)

end Rules

/-- The distances that fail the assertion on them. -/
theorem farthest_iff : ∀ symbol < 30, ∀ extraBits start,
    staticEntry distanceExtraBits symbol = .ok extraBits →
      staticEntry distanceStarts symbol = .ok start →
        ∀ temp < 2 ^ extraBits, 32 * 1024 ≤ temp + start ↔ symbol = 29 ∧ temp = 2 ^ 13 - 1 := by
  intro symbol hsymbol extraBits start hextra hstart temp htemp
  interval_cases symbol <;> cases hextra <;> cases hstart <;> omega

section Passes

variable (build : Build) {p : InfPass}

theorem assertFree_passLoadFixedHuffmanDecoders (hfresh : p.state.sllist.Fresh) :
    AssertFree (passLoadFixedHuffmanDecoders build p) := by
  obtain ⟨literal, list₁, distance, list₂, hliteral, hdistance⟩ :=
    makeFixedDecoders_ok build p.state.statics hfresh
  simp only [passLoadFixedHuffmanDecoders, hliteral, hdistance, bind, Except.bind]
  exact assertFree_ok _

/-- The end of a header step: the lengths are sorted, and a table is made of them. -/
theorem assertFree_makeDecoder {q : InfPass} {lengths : List ℕ}
    (h : Represents q.state.sllist (presentCodes lengths))
    (hlengths : ∀ length ∈ lengths, length ≤ maxCodeLength)
    (hle : lengths.length ≤ infLastValidSymbol + 1) (resetRepetitions : Bool) (table : HuffTable)
    (store : InfSLList → HuffTable → InfCore → InfCore) (next : InfStep) :
    AssertFree (do
      let (sorted, list) ← infSLListGetSorted q.state.sllist resetRepetitions
      let made ← infHuffMakeDecoder build table sorted
      goto (withState q (store list made)) next) := by
  rcases assertFree_sortAndMake build table h hlengths hle resetRepetitions with
    hnone | ⟨chain, elements, hsorted, hmake⟩
  · simp only [hnone, bind, Except.bind]
    exact assertFree_error (by decide)
  · refine (assertFree_of_eq hsorted).bind fun sorted heq ↦ ?_
    cases hsorted.symm.trans heq
    exact hmake.bind fun table _ ↦ assertFree_ok _

theorem assertFree_passLoadFrontDecoder (h : Guarded p) (hstep : p.state.step = .loadFrontDecoder) :
    AssertFree (passLoadFrontDecoder build p) := by
  have hcount := (symlensOf_le p.state).2 hstep
  simp only [symlensOf, hstep] at hcount
  obtain ⟨complete, list, after, hadd, -, hdone⟩ :=
    (h.front hstep).add3BitSymlens build (bitstreamOf p) hcount
  refine assertFree_listing (assertFree_of_eq hadd) fun list' after' hadd' ↦ ?_
  cases hadd.symm.trans hadd'
  obtain ⟨-, lengths, hrep, hlength, hle⟩ := hdone rfl
  exact assertFree_makeDecoder build hrep (fun length hmem ↦ (hle length hmem).trans (by decide))
    (by rw [hlength]; decide) true p.state.huffmanTableA
    (fun list table st ↦
      { st with sllist := list, huffmanTableA := table, frontDecoder := some .huffmanTableA }) _

/-- What both loaders of the alphabets of a block do. -/
theorem assertFree_loader {lengths : List ℕ} (h : Gathering p.state.sllist lengths) {count : ℕ}
    (hlength : lengths.length ≤ count) (hcount : count ≤ infLastValidSymbol + 1)
    {decoder : HuffTable} (hdecoder : FrontTable decoder) (resetRepetitions : Bool)
    (table : HuffTable) (store : InfSLList → HuffTable → InfCore → InfCore) (next : InfStep) :
    AssertFree (listing p
      (infSLListAddEncodedSymlens build p.state.sllist (bitstreamOf p) count decoder) fun p ↦ do
        let (sorted, list) ← infSLListGetSorted p.state.sllist resetRepetitions
        let made ← infHuffMakeDecoder build table sorted
        goto (withState p (store list made)) next) := by
  obtain ⟨hfree, hloop⟩ := Gathering.encodedSymlensLoop build hdecoder hcount (count + 2) _ _
    (bitstreamOf p) h hlength
  refine assertFree_listing hfree fun list after hadd ↦ ?_
  obtain ⟨lengths', hgathered, hle⟩ := hloop true list after hadd
  exact assertFree_makeDecoder build hgathered.represents hgathered.lengths_le (hle.trans hcount)
    resetRepetitions table store next

theorem assertFree_passLoadLiteralDecoder (h : Guarded p) (hstep : p.state.step = .loadLiteralDecoder) :
    AssertFree (passLoadLiteralDecoder build p) := by
  obtain ⟨hfront, htable, lengths, hgathers, hlength⟩ := h.gathers (.inl hstep)
  have hcount := (symlensOf_le p.state).1
  simp only [symlensOf, hstep] at hcount hlength
  rw [passLoadLiteralDecoder, hfront]
  refine AssertFree.bind (assertFree_ok _) fun decoder hdecoder ↦ ?_
  cases hdecoder
  exact assertFree_loader build hgathers hlength hcount htable false p.state.huffmanTableB
    (fun list table st ↦
      { st with sllist := list, huffmanTableB := table, literalDecoder := some .huffmanTableB }) _

theorem assertFree_passLoadDistanceDecoder (h : Guarded p)
    (hstep : p.state.step = .loadDistanceDecoder) :
    AssertFree (passLoadDistanceDecoder build p) := by
  obtain ⟨hfront, htable, lengths, hgathers, hlength⟩ := h.gathers (.inr hstep)
  have hcount := (symlensOf_le p.state).1
  simp only [symlensOf, hstep] at hcount hlength
  rw [passLoadDistanceDecoder, hfront]
  refine AssertFree.bind (assertFree_ok _) fun decoder hdecoder ↦ ?_
  cases hdecoder
  exact assertFree_loader build hgathers hlength hcount htable true p.state.huffmanTableA
    (fun list table st ↦
      { st with sllist := list, huffmanTableA := table, distanceDecoder := some .huffmanTableA }) _

/-- No pass fails an assertion but the one that reads the extra bits of the longest distance. -/
theorem assertFree_inflateStep (h : Guarded p) (hnear : ¬ FarthestMatch p) :
    AssertFree (inflateStep build p) := by
  have hptr : p.state.outputBuf.ptr ≤ infOutbufSize := h.inRange.ptr
  rw [inflateStep_eq]
  cases hstep : p.state.step <;> simp only [passOf]
  case start | loadDynamicHuffmanDecoders | fatalError | «end» =>
    first
    | exact assertFree_ok _
    | exact assertFree_reading (InfBS.assertFree_readBits _ _) fun _ _ _ ↦ assertFree_ok _
  case processNextBlock =>
    rw [passProcessNextBlock]
    split <;> exact assertFree_ok _
  case readBlockHeader =>
    refine assertFree_reading (InfBS.assertFree_readBits _ _) fun temp after _ ↦ ?_
    split <;> exact assertFree_ok _
  case processUncompressedBlock =>
    refine assertFree_reading (InfBS.assertFree_readDWord build h.orderly.low h.size_le)
      fun temp after _ ↦ ?_
    simp only
    split <;> exact assertFree_ok _
  case outputUncompressedBlock =>
    rw [show p = ⟨p.state, p.input, p.free⟩ from rfl, passOutputUncompressedBlock_eq,
      h.aligned hstep]
    simp only [beq_self_eq_true, Build.assert_true]
    split
    · exact assertFree_ok _
    · split <;> exact assertFree_ok _
  case loadFixedHuffmanDecoders =>
    exact assertFree_passLoadFixedHuffmanDecoders build (h.orderly.fresh (by simp [FillsList, hstep]))
  case loadFrontDecoder => exact assertFree_passLoadFrontDecoder build h hstep
  case loadLiteralDecoder => exact assertFree_passLoadLiteralDecoder build h hstep
  case loadDistanceDecoder => exact assertFree_passLoadDistanceDecoder build h hstep
  case processCompressedBlock | readLiteralOrLength =>
    exact (h.decoders (by simp [InCodes, hstep])).1.bind fun table _ ↦
      assertFree_reading (InfBS.assertFree_readEncodedBits _ _) fun _ _ _ ↦ assertFree_ok _
  case readLiteralOrLength2 =>
    rw [show p = ⟨p.state, p.input, p.free⟩ from rfl, passReadLiteralOrLength2_eq,
      infOutbufPutc_eq build hptr]
    split
    · split <;> exact assertFree_ok _
    · split
      · exact assertFree_ok _
      · split <;> exact assertFree_ok _
  case readLengthBits =>
    refine (assertFree_staticEntry _ _).bind fun extraBits hextra ↦
      (assertFree_staticEntry _ _).bind fun start hstart ↦
        assertFree_reading (InfBS.assertFree_readBits _ _) fun temp after hread ↦ ?_
    obtain ⟨-, hle⟩ := lengths_le _ (h.inRange.lengthSymbol hstep) _ _ hextra hstart
    have hlt := InfBS.readBits_lt hread
    exact (assertFree_assert build (decide_eq_true (by omega))).bind fun _ _ ↦ assertFree_ok _
  case readDistance =>
    refine (h.decoders (by simp [InCodes, hstep])).2.bind fun table _ ↦
      assertFree_reading (InfBS.assertFree_readEncodedBits _ _) fun symbol after _ ↦ ?_
    simp only
    split <;> exact assertFree_ok _
  case readDistanceBits =>
    refine (assertFree_staticEntry _ _).bind fun extraBits hextra ↦
      (assertFree_staticEntry _ _).bind fun start hstart ↦
        assertFree_reading (InfBS.assertFree_readBits _ _) fun temp after hread ↦ ?_
    have hlt := InfBS.readBits_lt hread
    have hshort : temp + start < 32 * 1024 := by
      by_contra hlong
      obtain ⟨hsymbol, rfl⟩ := (farthest_iff _ (h.inRange.distanceSymbol hstep) _ _ hextra hstart temp
        hlt).mp (not_lt.mp hlong)
      have hsymbol : p.state.literal = 29 := hsymbol
      rw [hsymbol] at hextra
      cases hextra
      exact hnear ⟨hstep, hsymbol, after, hread⟩
    exact (assertFree_assert build (decide_eq_true hshort)).bind fun _ _ ↦ assertFree_ok _
  case outputSequence =>
    rw [show p = ⟨p.state, p.input, p.free⟩ from rfl, passOutputSequence_eq]
    split
    · next hread => exact (assertFree_infOutbufRead build hptr _ _).error hread
    · simp only
      split
      · exact assertFree_ok _
      · split <;> exact assertFree_ok _
  case adler32Checksum =>
    rw [show p = ⟨p.state, p.input, p.free⟩ from rfl, passAdler32Checksum_eq]
    split <;> exact assertFree_ok _

/-- That pass does fail it. -/
theorem assertion_of_farthestMatch (behind : Option (ℕ → UInt8)) (h : FarthestMatch p) :
    inflateStep ⟨false, behind⟩ p = .error .assertion := by
  obtain ⟨hstep, hliteral, after, hread⟩ := h
  have hextra : staticEntry distanceExtraBits 29 = .ok 13 := rfl
  have hstart : staticEntry distanceStarts 29 = .ok 24577 := rfl
  rw [inflateStep_eq, hstep]
  simp only [passOf, passReadDistanceBits, hliteral, hextra, hstart, bind, Except.bind, hread,
    reading]
  rfl

end Passes

/-! ### The passes that go on -/

section Proceeding

variable {build : Build} {p : InfPass} {e : InfEffect}

/-- The step before some of the steps. -/
theorem previousStep {previous next : InfStep} (h : next ∈ nextSteps previous) :
    (next = .outputUncompressedBlock → previous = .processUncompressedBlock) ∧
      (next = .loadFrontDecoder → previous = .loadDynamicHuffmanDecoders) ∧
      (next = .loadLiteralDecoder → previous = .loadFrontDecoder) ∧
      (next = .loadDistanceDecoder → previous = .loadLiteralDecoder) ∧
      (InCodes next → InCodes previous ∨ previous = .loadFixedHuffmanDecoders ∨
        previous = .loadDistanceDecoder) := by
  cases previous <;> simp only [nextSteps, List.mem_cons, List.not_mem_nil, or_false] at h
  case processNextBlock | readBlockHeader | readLiteralOrLength2 =>
    rcases h with rfl | rfl | rfl <;> simp [InCodes]
  all_goals
    subst h
    simp [InCodes]

/-- The passes over the codes of a block leave its decoders alone. -/
theorem decoders_inCodes (hp : inflateStep build p = .ok e) (hcodes : InCodes p.state.step) :
    e.pass.state.decoder e.pass.state.literalDecoder = p.state.decoder p.state.literalDecoder ∧
      e.pass.state.decoder e.pass.state.distanceDecoder = p.state.decoder p.state.distanceDecoder := by
  have hsame := ((@BufferMoves.law (fun _ _ ↦ True) ⟨fun _ _ ↦ trivial, fun _ _ ↦ trivial,
    trivial⟩ build).step trivial hp).2 (fun hfills ↦ by
      rcases hfills with hstep | hstep | hstep <;> simp [InCodes, hstep] at hcodes)
      (fun hstep ↦ by simp [InCodes, hstep] at hcodes)
  have hliteral : e.pass.state.literalDecoder = p.state.literalDecoder :=
    congrArg Decoders.literalDecoder hsame
  have hdistance : e.pass.state.distanceDecoder = p.state.distanceDecoder :=
    congrArg Decoders.distanceDecoder hsame
  rw [hliteral, hdistance, decoder_of_decodersOf hsame, decoder_of_decodersOf hsame]
  exact ⟨rfl, rfl⟩

/-- A turn that does not proceed stays where it is, or ends in the error step. -/
theorem Turn.stays {c c' : Control} {signal : Signal BlockResult} {stored : List UInt8}
    (h : Turn build c signal stored c') (hs : signal ≠ .proceed) :
    c'.step = c.step ∨ c'.step = .fatalError := by
  cases h with
  | waits | storedPart | literalFull | copyPart | checksumPart | finished => exact .inl rfl
  | reservedType | invalidLength | invalidSymbol | invalidDistance | copyFails => exact .inr rfl
  | _ => exact absurd rfl hs

/-- Stored bytes go past the bit buffer. -/
theorem size_passOutputUncompressedBlock (hp : passOutputUncompressedBlock build p = .ok e) :
    e.pass.state.size = p.state.size := by
  rw [show p = ⟨p.state, p.input, p.free⟩ from rfl, passOutputUncompressedBlock_eq] at hp
  split at hp
  · cases hp
  · simp only at hp
    split at hp
    · cases hp; rfl
    · split at hp <;> cases hp <;> rfl

/-- A double word leaves nothing in the buffer. -/
theorem size_passProcessUncompressedBlock (hp : passProcessUncompressedBlock build p = .ok e)
    (hs : e.signal = .proceed) : e.pass.state.size = 0 := by
  rcases reading_ok hp with ⟨_, _, rfl⟩ | ⟨temp, after, hread, hgo⟩
  · cases hs
  have hempty : after.size = 0 := by
    simp only [InfBS.readDWord] at hread
    split at hread
    · cases hread
    · cases hread
    · split at hread
      · cases hread
      · cases hread; rfl
  simp only at hgo
  split at hgo <;> cases hgo <;> exact hempty

/-- The table for the code length alphabet, and an empty list for the lengths that it codes. -/
theorem frontTable_passLoadFrontDecoder (h : Guarded p) (hstep : p.state.step = .loadFrontDecoder)
    (hp : passLoadFrontDecoder build p = .ok e) (hs : e.signal = .proceed) :
    e.pass.state.frontDecoder = some .huffmanTableA ∧ FrontTable e.pass.state.huffmanTableA ∧
      e.pass.state.sllist.Fresh := by
  have hcount := (symlensOf_le p.state).2 hstep
  simp only [symlensOf, hstep] at hcount
  obtain ⟨complete, list', after', hadd', -, hdone⟩ :=
    (h.front hstep).add3BitSymlens build (bitstreamOf p) hcount
  rcases listing_ok hp with ⟨_, _, _, rfl⟩ | ⟨list, after, hadd, hnext⟩
  · cases hs
  cases hadd.symm.trans hadd'
  obtain ⟨-, lengths, hrep, hlength, hle⟩ := hdone rfl
  obtain ⟨sorted, hsort, hnext⟩ := bind_ok hnext
  obtain ⟨table, hmake, hnext⟩ := bind_ok hnext
  cases hnext
  refine ⟨rfl, ?_, fresh_of_getSorted hsort⟩
  rcases getSorted_cases hrep (fun length hmem ↦ (hle length hmem).trans (by decide))
    (by rw [hlength]; decide) true with hnone | ⟨chain, elements, hsorted, -, hcodes⟩
  · cases hnone.symm.trans hsort
  · cases hsorted.symm.trans hsort
    refine frontTable_of_make build (ascends_of_codesOf hcodes) (fun element helement ↦ ?_) hmake
    have hpair : (element.symbol, element.huffmanLength) ∈ sortedCodes lengths 1 maxCodeLength := by
      rw [← hcodes]
      exact List.mem_map_of_mem helement
    obtain ⟨⟨hpos, -⟩, hsymbol, hlengthAt⟩ := mem_sortedCodes.mp hpair
    simp only at hpos hsymbol hlengthAt
    have hmem := lengthAt_mem (hlengthAt ▸ hpos)
    rw [hlengthAt] at hmem
    have := hle _ hmem
    simp only [infLastValidLength, infSymlenSequenceSize] at hlength ⊢
    omega

/-- What a pass needs that reads lengths with the table for their alphabet: also when it suspends. -/
theorem gathers_suspended (h : Guarded p)
    (hstep : p.state.step = .loadLiteralDecoder ∨ p.state.step = .loadDistanceDecoder)
    (hp : inflateStep build p = .ok e) (hs : e.signal ≠ .proceed) :
    e.pass.state.frontDecoder = some .huffmanTableA ∧ FrontTable e.pass.state.huffmanTableA ∧
      ∃ lengths, Gathering e.pass.state.sllist lengths ∧
        lengths.length ≤ symlensOf e.pass.state := by
  obtain ⟨hpointer, htable, lengths, hgathers, hlength⟩ := h.gathers hstep
  have hcount := (symlensOf_le p.state).1
  have hsuspends : ∀ {count : ℕ} {list : InfSLList} {after : InfBS}, count = symlensOf p.state →
      infSLListAddEncodedSymlens build p.state.sllist (bitstreamOf p) count p.state.huffmanTableA =
        .ok (false, list, after) →
          ∃ lengths, Gathering list lengths ∧ lengths.length ≤ symlensOf p.state := by
    rintro count list after rfl hadd
    exact (Gathering.encodedSymlensLoop build htable hcount _ _ _ _ hgathers hlength).2 _ _ _ hadd
  rw [inflateStep_eq] at hp
  rcases hstep with hstep | hstep <;> simp only [hstep, passOf] at hp
  · simp only [passLoadLiteralDecoder, hpointer] at hp
    obtain ⟨decoder, hdecoder, hp⟩ := bind_ok hp
    cases hdecoder
    rcases listing_ok hp with ⟨list, after, hadd, rfl⟩ | ⟨list, after, _, hgo⟩
    · exact ⟨hpointer, htable, hsuspends (by simp only [symlensOf, hstep]) hadd⟩
    · obtain ⟨_, _, hgo⟩ := bind_ok hgo
      obtain ⟨_, _, hgo⟩ := bind_ok hgo
      cases hgo
      exact absurd rfl hs
  · simp only [passLoadDistanceDecoder, hpointer] at hp
    obtain ⟨decoder, hdecoder, hp⟩ := bind_ok hp
    cases hdecoder
    rcases listing_ok hp with ⟨list, after, hadd, rfl⟩ | ⟨list, after, _, hgo⟩
    · exact ⟨hpointer, htable, hsuspends (by simp only [symlensOf, hstep]) hadd⟩
    · obtain ⟨_, _, hgo⟩ := bind_ok hgo
      obtain ⟨_, _, hgo⟩ := bind_ok hgo
      cases hgo
      exact absurd rfl hs

/-- What the pass leaves that has read all lengths of one alphabet: room for those of the other. -/
theorem gathers_passLoadLiteralDecoder (h : Guarded p) (hstep : p.state.step = .loadLiteralDecoder)
    (hp : passLoadLiteralDecoder build p = .ok e) (hs : e.signal = .proceed) :
    e.pass.state.frontDecoder = some .huffmanTableA ∧ FrontTable e.pass.state.huffmanTableA ∧
      Gathering e.pass.state.sllist [] ∧ e.pass.state.literalDecoder = some .huffmanTableB := by
  obtain ⟨hpointer, htable, lengths, hgathers, hlength⟩ := h.gathers (.inl hstep)
  have hcount := (symlensOf_le p.state).1
  simp only [symlensOf, hstep] at hcount hlength
  simp only [passLoadLiteralDecoder, hpointer] at hp
  obtain ⟨decoder, hdecoder, hp⟩ := bind_ok hp
  cases hdecoder
  rcases listing_ok hp with ⟨_, _, _, rfl⟩ | ⟨list, after, hadd, hgo⟩
  · cases hs
  obtain ⟨lengths', hgathered, hle⟩ := (Gathering.encodedSymlensLoop build htable hcount _
    p.state.sllist _ (bitstreamOf p) hgathers hlength).2 _ list after hadd
  obtain ⟨sorted, hsort, hgo⟩ := bind_ok hgo
  obtain ⟨table, -, hgo⟩ := bind_ok hgo
  cases hgo
  refine ⟨hpointer, htable, ?_, rfl⟩
  rcases getSorted_cases hgathered.represents hgathered.lengths_le (hle.trans hcount) false with
    hnone | ⟨chain, elements, hsorted, -, -⟩
  · cases hnone.symm.trans hsort
  · cases hsorted.symm.trans hsort
    exact hgathered.restarted elements

theorem Guarded.proceed (h : Guarded p) (hp : inflateStep build p = .ok e)
    (hs : e.signal = .proceed) : Guarded e.pass := by
  have hturn := turn_inflateStep hp
  rw [hs] at hturn
  obtain ⟨hstored, hfront, hliteral, hdistance, hcodes⟩ := previousStep hturn.nextStep
  obtain ⟨hsize, hkeep⟩ := (bufferLaw_size build).step h.size_le hp
  refine ⟨h.inRange.turn hturn, orderly_inflateStep h.orderly hp, hsize, fun hnext ↦ ?_,
    fun hnext ↦ ?_, fun hnext ↦ ?_, fun hnext ↦ ?_, fun hnext ↦ ?_⟩
  · -- a stored block starts behind a double word
    have hstep : p.state.step = .processUncompressedBlock := hstored hnext
    rw [inflateStep_eq, hstep] at hp
    exact size_passProcessUncompressedBlock hp hs
  · have hstep : p.state.step = .loadDynamicHuffmanDecoders := hfront hnext
    have hnot : ¬ FillsList p.state.step := by simp [FillsList, hstep]
    have hsame : e.pass.state.sllist = p.state.sllist :=
      congrArg Decoders.sllist (hkeep hnot (by simp [hstep]))
    rw [hsame]
    exact (h.orderly.fresh hnot).sending
  · rcases hnext with hnext | hnext
    · have hstep : p.state.step = .loadFrontDecoder := hliteral hnext
      rw [inflateStep_eq, hstep] at hp
      obtain ⟨hpointer, htable, hfresh⟩ := frontTable_passLoadFrontDecoder h hstep hp hs
      exact ⟨hpointer, htable, [], hfresh.gathering, Nat.zero_le _⟩
    · have hstep : p.state.step = .loadLiteralDecoder := hdistance hnext
      rw [inflateStep_eq, hstep] at hp
      obtain ⟨hpointer, htable, hgathers, -⟩ := gathers_passLoadLiteralDecoder h hstep hp hs
      exact ⟨hpointer, htable, [], hgathers, Nat.zero_le _⟩
  · have hstep : p.state.step = .loadLiteralDecoder := hdistance hnext
    rw [inflateStep_eq, hstep] at hp
    exact (gathers_passLoadLiteralDecoder h hstep hp hs).2.2.2
  · rcases (show InCodes p.state.step ∨ p.state.step = .loadFixedHuffmanDecoders ∨
      p.state.step = .loadDistanceDecoder from hcodes hnext) with hbefore | hstep | hstep
    · obtain ⟨hliteral, hdistance⟩ := decoders_inCodes hp hbefore
      rw [hliteral, hdistance]
      exact h.decoders hbefore
    · rw [inflateStep_eq, hstep] at hp
      obtain ⟨_, _, hp⟩ := bind_ok hp
      obtain ⟨_, _, hp⟩ := bind_ok hp
      cases hp
      exact ⟨assertFree_ok _, assertFree_ok _⟩
    · have htable := h.literalDecoder hstep
      rw [inflateStep_eq, hstep] at hp
      obtain ⟨_, _, hp⟩ := bind_ok hp
      rcases listing_ok hp with ⟨_, _, _, rfl⟩ | ⟨list, after, _, hgo⟩
      · cases hs
      · obtain ⟨_, _, hgo⟩ := bind_ok hgo
        obtain ⟨_, _, hgo⟩ := bind_ok hgo
        cases hgo
        refine ⟨?_, assertFree_ok _⟩
        show AssertFree (InfCore.decoder _ p.state.literalDecoder)
        rw [htable]
        exact assertFree_ok _

/-- A pass that suspends leaves what the next one needs. -/
theorem Guarded.suspend (h : Guarded p) (hp : inflateStep build p = .ok e)
    (hs : e.signal ≠ .proceed) : Guarded e.pass := by
  have hturn := turn_inflateStep hp
  have hstay : e.pass.state.step = p.state.step ∨ e.pass.state.step = .fatalError := hturn.stays hs
  have hsize := ((bufferLaw_size build).step h.size_le hp).1
  have hfills : ∀ step, e.pass.state.step = step → step ≠ .fatalError → p.state.step = step := by
    rintro step hnext hrunning
    rcases hstay with hsame | hfatal
    · exact hsame.symm.trans hnext
    · exact absurd (hnext.symm.trans hfatal) hrunning
  refine ⟨h.inRange.turn hturn, orderly_inflateStep h.orderly hp, hsize, fun hnext ↦ ?_,
    fun hnext ↦ ?_, fun hnext ↦ ?_, fun hnext ↦ ?_, fun hnext ↦ ?_⟩
  · have hstep := hfills _ hnext (by simp)
    rw [inflateStep_eq, hstep] at hp
    exact (size_passOutputUncompressedBlock hp).trans (h.aligned hstep)
  · have hstep := hfills _ hnext (by simp)
    have hcount := (symlensOf_le p.state).2 hstep
    simp only [symlensOf, hstep] at hcount
    obtain ⟨complete, list', after', hadd', hsending, -⟩ :=
      (h.front hstep).add3BitSymlens build (bitstreamOf p) hcount
    rw [inflateStep_eq, hstep] at hp
    simp only [passOf] at hp
    rcases listing_ok hp with ⟨list, after, hadd, rfl⟩ | ⟨list, after, _, hgo⟩
    · cases hadd.symm.trans hadd'
      exact hsending rfl
    · obtain ⟨_, _, hgo⟩ := bind_ok hgo
      obtain ⟨_, _, hgo⟩ := bind_ok hgo
      cases hgo
      exact absurd rfl hs
  · refine gathers_suspended h ?_ hp hs
    rcases hnext with hnext | hnext
    · exact .inl (hfills _ hnext (by simp))
    · exact .inr (hfills _ hnext (by simp))
  · have hstep := hfills _ hnext (by simp)
    rw [inflateStep_eq, hstep] at hp
    obtain ⟨_, _, hp⟩ := bind_ok hp
    rcases listing_ok hp with ⟨_, _, _, rfl⟩ | ⟨list, after, _, hgo⟩
    · exact h.literalDecoder hstep
    · obtain ⟨_, _, hgo⟩ := bind_ok hgo
      obtain ⟨_, _, hgo⟩ := bind_ok hgo
      cases hgo
      exact absurd rfl hs
  · have hstep := hfills _ rfl (by rintro hfatal; simp [InCodes, hfatal] at hnext)
    rw [← hstep] at hnext
    obtain ⟨hliteral, hdistance⟩ := decoders_inCodes hp hnext
    rw [hliteral, hdistance]
    exact h.decoders hnext

theorem Guarded.step (h : Guarded p) (hp : inflateStep build p = .ok e) : Guarded e.pass := by
  by_cases hs : e.signal = .proceed
  · exact h.proceed hp hs
  · exact h.suspend hp hs

theorem Guarded.of_reaches {p q : InfPass} {stored : List UInt8} (h : Guarded p)
    (hreach : Reaches (inflateStep build) p stored q) : Guarded q := by
  induction hreach with
  | refl p => exact h
  | step hp _ _ ih => exact ih (h.step hp)

end Proceeding

/-! ### The call -/

theorem guarded_init (statics : Statics) (heap : InfState) (input : List UInt8) (free : ℕ) :
    Guarded ⟨(inflateInit statics heap).core, input, free⟩ where
  inRange := .of_step (by simp [controlOf, inflateInit]) (Nat.zero_le _)
  orderly := (@Reachable.init ⟨false, none⟩ statics heap).orderly
  size_le := Nat.zero_le _
  aligned _ := rfl
  front hstep := by cases hstep
  gathers hstep := by rcases hstep with hstep | hstep <;> cases hstep
  literalDecoder hstep := by cases hstep
  decoders hstep := by simp [InCodes, inflateInit] at hstep

/-- A fresh inflater that is given a stream in one buffer fails no assertion, if and only if it never
gets to a match at the longest distance. -/
theorem inflate_assertFree_iff (behind : Option (ℕ → UInt8)) (statics : Statics) (heap : InfState)
    {memory : Memory} {strm : ZStream} {flg : UInt8} {body : List UInt8}
    (hinput : memory.bytes strm.nextIn strm.availIn = 0x78 :: flg :: body) (hbody : body ≠ [])
    (hout : 0 < strm.availOut) :
    AssertFree (inflate ⟨false, behind⟩ memory strm (inflateInit statics heap)) ↔
      ¬ ∃ stored p, Reaches (inflateStep ⟨false, behind⟩)
          ⟨(inflateInit statics heap).core, body, strm.availOut⟩ stored p ∧
        FarthestMatch p := by
  have hlive : Live (inflateInit statics heap).core :=
    (@Reachable.init ⟨false, none⟩ statics heap).live (by simp [inflateInit])
  have hruns := runs_runLoop ⟨false, behind⟩
    (p := ⟨(inflateInit statics heap).core, body, strm.availOut⟩) hlive
  rw [inflate_headed rfl hbody hinput hout]
  constructor
  · rintro hfree ⟨stored, p, hreach, hfar⟩
    rw [hruns.eq_error_iff.mpr ⟨stored, p, hreach, assertion_of_farthestMatch behind hfar⟩] at hfree
    exact hfree .assertion rfl (.inl rfl)
  · intro hnear fault hfails hasserted
    have hrun : runLoop ⟨false, behind⟩
        ⟨(inflateInit statics heap).core, body, strm.availOut⟩ = .error fault := by
      cases hloop : runLoop ⟨false, behind⟩
          ⟨(inflateInit statics heap).core, body, strm.availOut⟩ with
      | ok e => rw [hloop] at hfails; cases hfails
      | error fault => rw [hloop] at hfails; cases hfails; rfl
    obtain ⟨stored, p, hreach, hp⟩ := hruns.eq_error_iff.mp hrun
    have hguarded := (guarded_init statics heap body strm.availOut).of_reaches hreach
    exact assertFree_inflateStep ⟨false, behind⟩ hguarded
      (fun hfar ↦ hnear ⟨stored, p, hreach, hfar⟩) fault hp hasserted

/-- A fixed block with a match of length 3 at distance 32768. -/
def farthestStream : List UInt8 := [0x78, 0x01, 0x03, 0xDE, 0xFF, 0x0F]

theorem inflate_assertFree_farthestStream :
    AssertFree (inflate ⟨false, none⟩ (memoryOf farthestStream) (streamOf 6 1) freshInflater) ↔
      ¬ ∃ stored p, Reaches (inflateStep ⟨false, none⟩)
          ⟨freshInflater.core, [0x03, 0xDE, 0xFF, 0x0F], 1⟩ stored p ∧ FarthestMatch p :=
  @inflate_assertFree_iff none ⟨none, none⟩ zeroHeap (memoryOf farthestStream) (streamOf 6 1) 0x01 _
    (by decide) (by decide) (by decide)

/-- The assertion on the distance fails. -/
theorem not_assertFree_farthestStream :
    ¬ AssertFree (inflate ⟨false, none⟩ (memoryOf farthestStream) (streamOf 6 1) freshInflater) := by
  have hfault : (inflate ⟨false, none⟩ (memoryOf farthestStream) (streamOf 6 1) freshInflater).map
      (fun r ↦ r.code) = .error .assertion := by decide +kernel
  intro hfree
  cases hr : inflate ⟨false, none⟩ (memoryOf farthestStream) (streamOf 6 1) freshInflater with
  | ok r => rw [hr] at hfault; cases hfault
  | error fault => rw [hr] at hfault; cases hfault; exact hfree _ hr (.inl rfl)

end ZephyrThrift.Muzic
