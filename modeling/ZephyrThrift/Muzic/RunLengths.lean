import ZephyrThrift.Foundation.LengthCommands
import ZephyrThrift.Muzic.HeaderReading

/-!
# The two passes over run-length coded code lengths

`infSLListAddEncodedSymlens` reads the code lengths of the literal and of the distance alphabet in
two passes, each of which may be cut into calls by the end of the input (`addInPieces`).
`addInTwoPasses_iff` says what the two passes add: the lengths that the commands expand to, unless
the scan of `infSLListGetSorted` between the passes runs past the lists, which it does when the
literal alphabet has no code.
-/

set_option autoImplicit false
set_option relaxedAutoImplicit false

namespace ZephyrThrift.Muzic

open Foundation

/-! ### Passes in pieces -/

/-- A reader of the symbol-length list, called again with the next piece of input as long as it asks
for more; `none` when it asks behind the last piece. -/
def addInPieces (read : InfSLList → InfBS → Except Fault (Bool × InfSLList × InfBS)) :
    InfSLList → InfBS → List (List UInt8) →
      Except Fault (Option (InfSLList × InfBS × List (List UInt8)))
  | list, bitstream, [] =>
    match read list bitstream with
    | .error fault => .error fault
    | .ok (false, _, _) => .ok none
    | .ok (true, list, bitstream) => .ok (some (list, bitstream, []))
  | list, bitstream, piece :: pieces =>
    match read list bitstream with
    | .error fault => .error fault
    | .ok (false, list, bitstream) =>
      addInPieces read list (bitstream.facing (bitstream.input ++ piece)) pieces
    | .ok (true, list, bitstream) => .ok (some (list, bitstream, piece :: pieces))

/-- What a reader gets from all of the input at once, it gets from the pieces. -/
theorem addInPieces_eq {read : InfSLList → InfBS → Except Fault (Bool × InfSLList × InfBS)}
    (law : ListSuspendable read) {list' : InfSLList} {after : InfBS} (pieces : List (List UInt8)) :
    ∀ list bitstream,
      read list (bitstream.facing (bitstream.input ++ pieces.flatten)) = .ok (true, list', after) →
        ∃ unread left, addInPieces read list bitstream pieces =
            .ok (some (list', after.facing unread, left)) ∧ unread ++ left.flatten = after.input := by
  induction pieces with
  | nil =>
    intro list bitstream h
    rw [List.flatten_nil, List.append_nil] at h
    refine ⟨after.input, [], ?_, by rw [List.flatten_nil, List.append_nil]⟩
    have hread : read list bitstream = .ok (true, list', after) := h
    rw [addInPieces, hread]
    rfl
  | cons piece pieces ih =>
    intro list bitstream h
    rw [addInPieces]
    cases hread : read list bitstream with
    | error fault =>
      rw [law.fault _ _ _ _ hread] at h
      cases h
    | ok result =>
      obtain ⟨complete, list₁, bitstream₁⟩ := result
      cases complete with
      | true =>
        -- the rest of the input is not looked at
        obtain ⟨used, hused, hsettle⟩ := law.settle _ _ _ _ hread
        rw [hused, List.append_assoc, hsettle] at h
        injection h with h
        simp only [Prod.mk.injEq, true_and] at h
        obtain ⟨rfl, rfl⟩ := h
        exact ⟨bitstream₁.input, piece :: pieces, rfl, rfl⟩
      | false =>
        obtain ⟨hnil, hsuspend⟩ := law.suspend _ _ _ _ (piece :: pieces).flatten hread
        rw [hsuspend, List.flatten_cons] at h
        simp only [hnil, List.nil_append]
        exact ih list₁ (bitstream₁.facing piece) h

/-- The two passes over the code lengths of a dynamic header, and the lists they fill. -/
def addInTwoPasses (build : Build) (decoder : HuffTable) (literalCount distanceCount : ℕ)
    (list : InfSLList) (bitstream : InfBS) (pieces : List (List UInt8)) :
    Except Fault (Option (InfSLList × InfSLList)) := do
  match ← addInPieces (fun list bitstream ↦
      infSLListAddEncodedSymlens build list bitstream literalCount decoder) list bitstream pieces with
  | none => return none
  | some (literalList, bitstream, pieces) =>
    let (_, list) ← infSLListGetSorted literalList false
    match ← addInPieces (fun list bitstream ↦
        infSLListAddEncodedSymlens build list bitstream distanceCount decoder)
        list bitstream pieces with
    | none => return none
    | some (distanceList, _, _) => return some (literalList, distanceList)

/-! ### What the passes add -/

/-- Where no symbol was added, the scan for the first list runs past the lists. -/
theorem scanHeads_none {headPtr : ℕ → Option ℕ} (h : ∀ length, headPtr length = none) (fuel : ℕ) :
    ∀ start, scanHeads headPtr fuel start = .error .headPtrIndex := by
  induction fuel with
  | zero => intro start; rfl
  | succ fuel ih => intro start; rw [scanHeads, if_pos (h start), ih]

theorem infSLListGetSorted_empty {list : InfSLList} (h : Represents list []) (reset : Bool) :
    infSLListGetSorted list reset = .error .headPtrIndex := by
  rw [infSLListGetSorted, scanHeads_none h.head]

theorem presentCodes_eq_nil {lengths : List ℕ} (h : ¬ HasCode lengths) : presentCodes lengths = [] := by
  refine List.eq_nil_iff_forall_not_mem.mpr fun code hmem ↦ h ?_
  obtain ⟨hlt, hne, -⟩ := mem_presentCodes.mp hmem
  exact ⟨_, lengthAt_mem (Nat.pos_of_ne_zero hne), hne⟩

/-- Before the first command, nothing is parsed and nothing is pending. -/
theorem InfSLList.Fresh.filling {list : InfSLList} (h : list.Fresh) : Filling list [] [] [] where
  represents := h.represents
  symbol := h.symbol
  command := h.command
  lengths := by rw [h.repetitions]; rfl
  last := fun _ hlast ↦ by cases hlast
  length_le := by rw [h.huffmanLength]; exact Nat.zero_le _

/-- Where the list is emptied without a reset, the pending repetitions go to the next alphabet. -/
theorem Filling.restarted {list : InfSLList} {added parsed : List ℕ}
    (h : Filling list [] added parsed) (elements : ℕ → InfSymlen) :
    Filling (list.restarted false elements) added [] parsed where
  represents := represents_restarted list false elements
  symbol := rfl
  command := h.command
  lengths := by rw [h.lengths, List.nil_append, List.append_nil]; rfl
  last := h.last
  length_le := h.length_le

theorem Filling.added_eq {list : InfSLList} {before added parsed total : List ℕ}
    (h : Filling list before added parsed) (hbegins : parsed <+: total) :
    added = (total.drop before.length).take added.length := by
  obtain ⟨more, rfl⟩ := hbegins
  rw [h.lengths, List.append_assoc, List.append_assoc, List.drop_left, List.take_left]

/-- The bits in front of a buffer that is fed further input. -/
theorem faces_facing {limit : ℕ} {bitstream : InfBS} {bits : List Bool}
    (h : bitstream.Faces limit bits) {input : List UInt8} (hinput : input = bitstream.input) :
    (bitstream.facing input).Faces limit bits := by
  subst hinput
  exact h

/-- One pass in pieces over an encoded sequence of commands. -/
theorem addInPieces_commands (build : Build) {table : HuffTable} {codeLengths : List ℕ}
    (hdecodes : Decodes table codeLengths) (hkraft : KraftLe maxCodeLength codeLengths)
    (hcodes : codeLengths.length ≤ 19) {limit : ℕ} (hlimit : 7 ≤ limit) {numberOfSymlens count : ℕ}
    (hmax : numberOfSymlens ≤ infLastValidSymbol + 1) {before parsed : List ℕ}
    (hroom : before.length + numberOfSymlens ≤ count) {list : InfSLList}
    (hlist : Filling list before [] parsed) {commands : List LengthCommand}
    (hassigned : ∀ command ∈ commands, 0 < lengthAt codeLengths command.symbol)
    (hfirst : parsed = [] → ∀ command ∈ commands.head?, command.symbol ≠ 16)
    (hcount : (expandCommands parsed commands).length = count) {rest : List Bool}
    {bitstream : InfBS} {pieces : List (List UInt8)}
    (hfaces : (bitstream.facing (bitstream.input ++ pieces.flatten)).Faces limit
      (encodeCommands codeLengths commands ++ rest)) :
    ∃ list' after left added done todo, commands = done ++ todo ∧
      addInPieces (fun list bitstream ↦
          infSLListAddEncodedSymlens build list bitstream numberOfSymlens table)
        list bitstream pieces = .ok (some (list', after, left)) ∧
      (after.facing (after.input ++ left.flatten)).Faces limit
        (encodeCommands codeLengths todo ++ rest) ∧
      Filling list' before added (expandCommands parsed done) ∧ added.length = numberOfSymlens := by
  obtain ⟨done, todo, fuel, hsplit, hparse, -⟩ :=
    parseLengths_encodeCommands hkraft hroom rest commands parsed hassigned hfirst hcount
  obtain ⟨list', after, added, hloop, hafter, hfilling, hlength⟩ :=
    (encodedSymlensLoop_spec build hlimit hdecodes hkraft.1 hcodes hmax (numberOfSymlens + 2) list
      (bitstream.facing (bitstream.input ++ pieces.flatten)) [] parsed _ fuel hlist hfaces
      (Nat.zero_le _) (turnsLeft_le numberOfSymlens list)).1 _ _ hparse
  obtain ⟨unread, left, hpieces, hunread⟩ := addInPieces_eq
    (listSuspendable_infSLListAddEncodedSymlens numberOfSymlens table) pieces list bitstream
    hloop
  exact ⟨list', after.facing unread, left, added, done, todo, hsplit, hpieces,
    faces_facing hafter hunread, hfilling, hlength⟩

/-- For a sequence of commands that expands to the lengths of both alphabets, however the input is
cut: the two passes add the lengths of the literal alphabet and then those of the distance alphabet,
if and only if the literal alphabet has a code. -/
theorem addInTwoPasses_iff (build : Build) {table : HuffTable} {codeLengths : List ℕ}
    (hdecodes : Decodes table codeLengths) (hkraft : KraftLe maxCodeLength codeLengths)
    (hcodes : codeLengths.length ≤ 19) {literalCount distanceCount : ℕ}
    (hliteralCount : literalCount ≤ 288) (hdistanceCount : distanceCount ≤ 32) {list : InfSLList} (hlist : list.Fresh) {commands : List LengthCommand}
    (hassigned : ∀ command ∈ commands, 0 < lengthAt codeLengths command.symbol)
    (hfirst : ∀ command ∈ commands.head?, command.symbol ≠ 16)
    (hcount : (expandCommands [] commands).length = literalCount + distanceCount) {rest : List Bool}
    {bitstream : InfBS} (hlow : bitstream.bits < 2 ^ bitstream.size) {pieces : List (List UInt8)}
    (hview : (bitstream.facing (bitstream.input ++ pieces.flatten)).view =
      encodeCommands codeLengths commands ++ rest) :
    (∃ literalList distanceList,
      addInTwoPasses build table literalCount distanceCount list bitstream pieces =
        .ok (some (literalList, distanceList)) ∧
      Represents literalList (presentCodes ((expandCommands [] commands).take literalCount)) ∧
      Represents distanceList (presentCodes ((expandCommands [] commands).drop literalCount))) ↔
    HasCode ((expandCommands [] commands).take literalCount) := by
  have hfaces : (bitstream.facing (bitstream.input ++ pieces.flatten)).Faces
      (max 7 bitstream.size) (encodeCommands codeLengths commands ++ rest) :=
    ⟨hview, hlow, le_max_right _ _⟩
  have hmax : literalCount ≤ infLastValidSymbol + 1 := by simp only [infLastValidSymbol]; omega
  obtain ⟨literalList, after, left, literal, done, todo, hsplit, hliteral, hafter, hfilling,
    hlength⟩ := addInPieces_commands build hdecodes hkraft hcodes (le_max_left _ _) hmax
      (by rw [List.length_nil]; omega) hlist.filling hassigned (fun _ ↦ hfirst) hcount hfaces
  have hwhole : expandCommands [] commands = expandCommands (expandCommands [] done) todo := by
    rw [hsplit, expandCommands_append]
  have hliteralEq : literal = (expandCommands [] commands).take literalCount := by
    rw [hfilling.added_eq (hwhole ▸ prefix_expandCommands todo _), hlength, List.length_nil,
      List.drop_zero]
  constructor
  · rintro ⟨_, _, hpasses, -, -⟩
    by_contra hnone
    have hempty : Represents literalList [] := by
      rw [← presentCodes_eq_nil hnone, ← hliteralEq]
      exact hfilling.represents
    rw [addInTwoPasses, hliteral] at hpasses
    simp only [bind, Except.bind, infSLListGetSorted_empty hempty] at hpasses
    cases hpasses
  · intro hcode
    have hlengths : ∀ length ∈ literal, length ≤ maxCodeLength := by
      intro length hmem
      rw [hliteralEq] at hmem
      exact expandCommands_le commands [] (by simp) _ (List.mem_of_mem_take hmem)
    obtain ⟨chain, elements, hsorted, -⟩ := getSorted_spec hfilling.represents hlengths
      (hliteralEq ▸ hcode) (hlength.le.trans hmax) false
    have hfirst' : expandCommands [] done = [] → ∀ command ∈ todo.head?, command.symbol ≠ 16 := by
      intro hnil
      have hle := length_le_expandCommands done []
      rw [hnil, List.length_nil, Nat.zero_add] at hle
      rw [List.length_eq_zero_iff.mp (Nat.le_zero.mp hle), List.nil_append] at hsplit
      exact hsplit ▸ hfirst
    obtain ⟨distanceList, last, left', distance, done', todo', hsplit', hdistance, -, hfilling',
      hlength'⟩ := addInPieces_commands build hdecodes hkraft hcodes (le_max_left _ _)
        (show distanceCount ≤ infLastValidSymbol + 1 by simp only [infLastValidSymbol]; omega)
        (by rw [hlength]) (hfilling.restarted elements)
        (fun command hmem ↦ hassigned command (by rw [hsplit]; exact List.mem_append_right _ hmem))
        hfirst' (by rw [← hwhole, hcount]) hafter
    have hdistanceEq : distance = (expandCommands [] commands).drop literalCount := by
      have hbegins : expandCommands (expandCommands [] done) done' <+: expandCommands [] commands := by
        rw [hwhole, hsplit', expandCommands_append]
        exact prefix_expandCommands _ _
      rw [hfilling'.added_eq hbegins, hlength, hlength']
      exact List.take_of_length_le (by rw [List.length_drop, hcount]; omega)
    refine ⟨literalList, distanceList, ?_, hliteralEq ▸ hfilling.represents,
      hdistanceEq ▸ hfilling'.represents⟩
    rw [addInTwoPasses, hliteral]
    simp only [bind, Except.bind, hsorted, hdistance]
    rfl

/-- The code length alphabet with a code for the symbols 1 and 18. -/
def twoCodeLengths : List ℕ := [0, 1] ++ List.replicate 16 0 ++ [1]

/-- Two runs of zeros, and the commands behind them. -/
def zerosThen (extra : ℕ) (h : extra < 2 ^ 7) (commands : List LengthCommand) : List LengthCommand :=
  ⟨18, 127, by norm_num, by decide⟩ :: ⟨18, extra, by norm_num, h⟩ :: commands

/-- Symbol 1 of the code length alphabet. -/
def lengthOne : LengthCommand := ⟨1, 0, by norm_num, by decide⟩

/-- The commands of a header whose literal alphabet has one code, for symbol 256. -/
def oneLiteral : List LengthCommand := zerosThen 107 (by norm_num) [lengthOne, lengthOne]

/-- The commands of a header whose literal alphabet has no code. -/
def noLiteral : List LengthCommand := zerosThen 108 (by norm_num) [lengthOne]

theorem exists_decodes {lengths : List ℕ} (hkraft : KraftLe maxCodeLength lengths)
    (hcode : HasCode lengths) (hlength : lengths.length ≤ 288) :
    ∃ table, Decodes table lengths := by
  have hcodes : codesOf ((sortedCodes lengths 1 maxCodeLength).map fun code ↦
      ⟨code.1, code.2, none⟩) = sortedCodes lengths 1 maxCodeLength := by
    rw [codesOf, List.map_map]
    exact List.map_id _
  obtain ⟨table, -, hdecodes⟩ :=
    infHuffMakeDecoder_decodes ⟨false, none⟩ staticTable hcodes hkraft hcode
      (hlength.trans (by decide))
  exact ⟨table, hdecodes⟩

theorem addInTwoPasses_oneLiteral :
    ∃ table, Decodes table twoCodeLengths ∧ ∃ literalList distanceList,
      addInTwoPasses ⟨false, none⟩ table 257 1 freshInflater.core.sllist ⟨0, 0, [0xFF]⟩
        [[0xD7], [0x00]] = .ok (some (literalList, distanceList)) ∧
      Represents literalList [(256, 1)] ∧ Represents distanceList [(0, 1)] := by
  have hkraft : KraftLe maxCodeLength twoCodeLengths := by decide +kernel
  obtain ⟨table, hdecodes⟩ := exists_decodes hkraft ⟨1, by simp [twoCodeLengths], by norm_num⟩
    (by simp [twoCodeLengths])
  have hfresh : freshInflater.core.sllist.Fresh :=
    ⟨represents_nil rfl (fun _ ↦ rfl) fun _ ↦ rfl, rfl, rfl, rfl, rfl⟩
  obtain ⟨hassigned, hfirst, hcount, hcode, hfront, hbehind⟩ :
      (∀ command ∈ oneLiteral, 0 < lengthAt twoCodeLengths command.symbol) ∧
        (∀ command ∈ oneLiteral.head?, command.symbol ≠ 16) ∧
        (expandCommands [] oneLiteral).length = 257 + 1 ∧
        HasCode ((expandCommands [] oneLiteral).take 257) ∧
        presentCodes ((expandCommands [] oneLiteral).take 257) = [(256, 1)] ∧
        presentCodes ((expandCommands [] oneLiteral).drop 257) = [(0, 1)] := by
    decide +kernel
  have hview : ((InfBS.mk 0 0 [0xFF]).facing ([0xFF] ++ [[0xD7], [0x00]].flatten)).view =
      encodeCommands twoCodeLengths oneLiteral ++ List.replicate 6 false := by decide +kernel
  obtain ⟨literalList, distanceList, hadd, hliteral, hdistance⟩ :=
    (addInTwoPasses_iff ⟨false, none⟩ hdecodes hkraft (by simp [twoCodeLengths])
      (show 257 ≤ 288 by norm_num) (show 1 ≤ 32 by norm_num) hfresh hassigned hfirst hcount
      Nat.one_pos hview).mpr hcode
  exact ⟨table, hdecodes, literalList, distanceList, hadd, hfront ▸ hliteral, hbehind ▸ hdistance⟩

/-- The scan between the passes runs past the lists. -/
theorem addInTwoPasses_noLiteral :
    (expandCommands [] noLiteral).length = 257 + 1 ∧
      (InfBS.mk 0 0 [0xFF, 0xD9, 0x00]).view =
        encodeCommands twoCodeLengths noLiteral ++ List.replicate 7 false ∧
      (infHuffMakeDecoder ⟨false, none⟩ staticTable [⟨1, 1, none⟩, ⟨18, 1, none⟩] >>= fun table ↦
        (addInTwoPasses ⟨false, none⟩ table 257 1 freshInflater.core.sllist ⟨0, 0, [0xFF, 0xD9, 0x00]⟩
          []).map fun _ ↦ ()) = .error .headPtrIndex := by
  decide +kernel

end ZephyrThrift.Muzic
