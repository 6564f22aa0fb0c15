import ZephyrThrift.Muzic.Reading

/-!
# Reading the header of a dynamic block

The readers of the symbol-length list, against the parser of the reference decoder: where the parser
gets something from the bits, they get the same; where it finds the bits too short, they wait. The
list of pending repetitions carries a run of code lengths over from the literal to the distance
alphabet (`Filling`).
-/

set_option autoImplicit false
set_option relaxedAutoImplicit false

namespace ZephyrThrift.Muzic

open Foundation

/-- The answer of a reader that follows a parser, as long as the bits are not malformed. -/
inductive Answers {α : Type} (limit : ℕ) : Parse α → Except Fault (Option α × InfBS) → Prop
  | done {value : α} {rest : List Bool} {after : InfBS} (h : after.Faces limit rest) :
      Answers limit (.done value rest) (.ok (some value, after))
  | short (after : InfBS) : Answers limit .short (.ok (none, after))
  | malformed (result : Except Fault (Option α × InfBS)) : Answers limit .malformed result

theorem InfBS.Faces.answers_readBits {limit count : ℕ} {bitstream : InfBS} {bits : List Bool}
    (h : bitstream.Faces limit bits) (hlimit : 7 ≤ limit) (hcount : count ≤ 25) :
    Answers limit (parseBits count bits) (bitstream.readBits count) := by
  rw [parseBits]
  cases htake : takeBits count bits with
  | some taken =>
    obtain ⟨after, hread, hafter⟩ := h.readBits hlimit hcount htake
    rw [hread]
    exact .done hafter
  | none =>
    obtain ⟨after, hread⟩ := h.readBits_none hcount htake
    rw [hread]
    exact .short after

theorem InfBS.Faces.answers_readEncodedBits {limit : ℕ} {bitstream : InfBS} {bits : List Bool}
    {table : HuffTable} {lengths : List ℕ} (h : bitstream.Faces limit bits) (hlimit : 7 ≤ limit)
    (hdecodes : Decodes table lengths) (hmax : ∀ length ∈ lengths, length ≤ maxCodeLength) :
    Answers limit (parseSymbol lengths bits) (bitstream.readEncodedBits table) := by
  rw [parseSymbol]
  cases htake : takeSymbol lengths bits with
  | some taken =>
    obtain ⟨after, hread, hafter⟩ := h.readEncodedBits hlimit hdecodes hmax htake
    rw [hread]
    exact .done hafter
  | none =>
    simp only
    split
    · next hbegins =>
      obtain ⟨symbol, -, hpos, tail, htail⟩ := hbegins
      have hne : tail ≠ [] := by
        rintro rfl
        rw [List.append_nil] at htail
        exact not_prefix_of_takeSymbol htake hpos (htail ▸ List.prefix_refl _)
      obtain ⟨after, hread⟩ := h.readEncodedBits_none hdecodes hmax hpos htail.symm hne
      rw [hread]
      exact .short after
    · exact .malformed _

/-! ### The code length alphabet -/

/-- Storing lengths in the order in which they are sent. -/
def storeLengths (list : InfSLList) (lengths : List ℕ) : InfSLList :=
  lengths.foldl (fun list length ↦
    { list with
      lengthsBySymbol := Function.update list.lengthsBySymbol (symbolOrder.getD list.symbol 0) length
      symbol := list.symbol + 1 }) list

theorem clear3BitLengths_eq (count : ℕ) :
    ∀ list, clear3BitLengths list count = storeLengths list (List.replicate count 0) := by
  induction count with
  | zero => intro list; rfl
  | succ count ih => intro list; rw [clear3BitLengths, ih]; rfl

theorem storeLengths_append (list : InfSLList) (first second : List ℕ) :
    storeLengths list (first ++ second) = storeLengths (storeLengths list first) second :=
  List.foldl_append

/-- Storing lengths changes the array and the position in the order. -/
theorem storeLengths_eq (lengths : List ℕ) :
    ∀ list, ∃ arr, storeLengths list lengths =
      { list with lengthsBySymbol := arr, symbol := list.symbol + lengths.length } := by
  induction lengths with
  | nil => intro list; exact ⟨list.lengthsBySymbol, rfl⟩
  | cons length lengths ih =>
    intro list
    obtain ⟨arr, harr⟩ := ih
      { list with
        lengthsBySymbol :=
          Function.update list.lengthsBySymbol (symbolOrder.getD list.symbol 0) length
        symbol := list.symbol + 1 }
    refine ⟨arr, harr.trans ?_⟩
    rw [List.length_cons, Nat.add_comm lengths.length, ← Nat.add_assoc]

/-- The order of the code lengths lists every symbol once. -/
theorem symbolOrder_getD_iff : ∀ symbol < 19, ∀ i < 19,
    symbol = symbolOrder.getD i 0 ↔ codeLengthOrder.idxOf symbol = i := by
  decide

theorem idxOf_codeLengthOrder_lt : ∀ symbol < 19, codeLengthOrder.idxOf symbol < 19 := by
  decide

theorem storeLengths_lengthsBySymbol {symbol : ℕ} (hsymbol : symbol < 19) (lengths : List ℕ) :
    ∀ list, list.symbol + lengths.length ≤ 19 →
      (storeLengths list lengths).lengthsBySymbol symbol =
        if list.symbol ≤ codeLengthOrder.idxOf symbol ∧
          codeLengthOrder.idxOf symbol < list.symbol + lengths.length
        then lengths.getD (codeLengthOrder.idxOf symbol - list.symbol) 0
        else list.lengthsBySymbol symbol := by
  induction lengths with
  | nil =>
    intro list _
    rw [if_neg (by simp)]
    rfl
  | cons length lengths ih =>
    intro list hroom
    rw [List.length_cons] at hroom ⊢
    have hrest := ih
      { list with
        lengthsBySymbol :=
          Function.update list.lengthsBySymbol (symbolOrder.getD list.symbol 0) length
        symbol := list.symbol + 1 } (by simp only; omega)
    have horder := symbolOrder_getD_iff symbol hsymbol list.symbol (by omega)
    refine hrest.trans ?_
    simp only [Function.update_apply, horder]
    by_cases hhere : codeLengthOrder.idxOf symbol = list.symbol
    · rw [if_neg (by omega), if_pos hhere, if_pos (by omega), hhere, Nat.sub_self]
      rfl
    · rw [if_neg hhere]
      by_cases hlater : list.symbol + 1 ≤ codeLengthOrder.idxOf symbol ∧
          codeLengthOrder.idxOf symbol < list.symbol + 1 + lengths.length
      · rw [if_pos hlater, if_pos (by omega),
          show codeLengthOrder.idxOf symbol - list.symbol =
            codeLengthOrder.idxOf symbol - (list.symbol + 1) + 1 by omega]
        rfl
      · rw [if_neg hlater, if_neg (by omega)]

/-- The lengths that were sent, and zeros for the others. -/
theorem range_map_storeLengths {list : InfSLList} (hlist : list.symbol = 0) (sent : List ℕ)
    (hsent : sent.length ≤ 19) :
    (List.range 19).map
        (storeLengths list (sent ++ List.replicate (19 - sent.length) 0)).lengthsBySymbol =
      codeLengthLengths sent := by
  refine List.map_congr_left fun symbol hsymbol ↦ ?_
  have hlt := List.mem_range.mp hsymbol
  have hindex := idxOf_codeLengthOrder_lt symbol hlt
  rw [storeLengths_lengthsBySymbol hlt _ _ (by
      rw [hlist, List.length_append, List.length_replicate]; omega), hlist, List.length_append,
    List.length_replicate, if_pos (by omega), Nat.sub_zero]
  rcases lt_or_ge (codeLengthOrder.idxOf symbol) sent.length with h | h
  · rw [List.getD_append _ _ _ _ h]
  · rw [List.getD_append_right _ _ _ _ h, List.getD_eq_default sent _ h,
      List.getD_replicate 0 (by omega)]

theorem codeLengthLengths_le {sent : List ℕ} (h : ∀ length ∈ sent, length < 8) :
    ∀ length ∈ codeLengthLengths sent, length ≤ 7 := by
  intro length hmem
  obtain ⟨symbol, -, rfl⟩ := List.mem_map.mp hmem
  rcases lt_or_ge (codeLengthOrder.idxOf symbol) sent.length with hlt | hge
  · rw [List.getD_eq_getElem _ _ hlt]
    exact Nat.le_of_lt_succ (h _ (List.getElem_mem hlt))
  · rw [List.getD_eq_default _ _ hge]
    exact Nat.zero_le _

theorem parseSymbol_lt {lengths : List ℕ} {symbol : ℕ} {bits rest : List Bool}
    (h : parseSymbol lengths bits = .done symbol rest) : symbol < lengths.length := by
  rw [parseSymbol] at h
  split at h
  · next htake =>
    cases h
    exact lt_length_of_lengthAt_pos (takeSymbol_some htake).1
  · split at h <;> cases h

/-- The loop that reads the lengths that were sent. -/
theorem read3BitLengths_spec {limit : ℕ} (hlimit : 7 ≤ limit) (count : ℕ) :
    ∀ (list : InfSLList) (bitstream : InfBS) (bits : List Bool), bitstream.Faces limit bits →
      (∀ sent rest, parseNumbers 3 count bits = .done sent rest →
        ∃ after, read3BitLengths list bitstream count = .ok (true, storeLengths list sent, after) ∧
          after.Faces limit rest ∧ sent.length = count ∧ ∀ length ∈ sent, length < 8) ∧
      (parseNumbers 3 count bits = .short →
        ∃ list' after, read3BitLengths list bitstream count = .ok (false, list', after)) := by
  induction count with
  | zero =>
    intro list bitstream bits h
    refine ⟨fun sent rest hparse ↦ ?_, fun hparse ↦ by cases hparse⟩
    cases hparse
    exact ⟨bitstream, rfl, h, rfl, fun _ hmem ↦ absurd hmem List.not_mem_nil⟩
  | succ count ih =>
    intro list bitstream bits h
    have hread := h.answers_readBits hlimit (show 3 ≤ 25 by norm_num)
    rw [parseNumbers, read3BitLengths]
    cases htake : parseBits 3 bits with
    | malformed => exact ⟨fun _ _ hparse ↦ (by cases hparse), fun hparse ↦ (by cases hparse)⟩
    | short =>
      rw [htake] at hread
      generalize bitstream.readBits 3 = result at hread
      cases hread with
      | short after =>
        exact ⟨fun _ _ hparse ↦ (by cases hparse), fun _ ↦ ⟨list, after, rfl⟩⟩
    | done value middle =>
      have hvalue : value < 8 := parseBits_lt htake
      rw [htake] at hread
      generalize bitstream.readBits 3 = result at hread
      simp only [Parse.done_bind]
      cases hread with
      | @done _ _ after hafter =>
        obtain ⟨hdone, hshort⟩ := ih
          { list with
            lengthsBySymbol :=
              Function.update list.lengthsBySymbol (symbolOrder.getD list.symbol 0) value
            symbol := list.symbol + 1 } after middle hafter
        constructor
        · intro sent rest hparse
          obtain ⟨values, bits', hvalues, heq⟩ := Parse.bind_eq_done hparse
          cases heq
          obtain ⟨last, hrun, hlast, hlength, hsmall⟩ := hdone values rest hvalues
          exact ⟨last, hrun, hlast, by rw [List.length_cons, hlength],
            List.forall_mem_cons.mpr ⟨hvalue, hsmall⟩⟩
        · intro hparse
          rcases Parse.bind_eq_short hparse with hvalues | ⟨_, _, _, heq⟩
          · exact hshort hvalues
          · cases heq

/-- `infSLListAdd3BitSymlens` on an empty list: the code lengths of the code length alphabet. -/
theorem infSLListAdd3BitSymlens_spec (build : Build) {limit : ℕ} (hlimit : 7 ≤ limit)
    {list : InfSLList} (hlist : Represents list []) (hsymbol : list.symbol = 0)
    {bitstream : InfBS} {bits : List Bool} (h : bitstream.Faces limit bits) {count : ℕ}
    (hcount : count ≤ 19) :
    (∀ sent rest, parseNumbers 3 count bits = .done sent rest →
      ∃ list' after, infSLListAdd3BitSymlens build list bitstream count = .ok (true, list', after) ∧
        after.Faces limit rest ∧ Represents list' (presentCodes (codeLengthLengths sent))) ∧
    (parseNumbers 3 count bits = .short →
      ∃ list' after, infSLListAdd3BitSymlens build list bitstream count =
        .ok (false, list', after)) := by
  have hlast : min count infSymlenSequenceSize - list.symbol = count := by
    simp only [infSymlenSequenceSize]
    omega
  obtain ⟨hdone, hshort⟩ := read3BitLengths_spec hlimit count list bitstream bits h
  constructor
  · intro sent rest hparse
    obtain ⟨after, hread, hafter, hlength, hsmall⟩ := hdone sent rest hparse
    obtain ⟨arr, harr⟩ := storeLengths_eq sent list
    have hleft : infSymlenSequenceSize - (storeLengths list sent).symbol = 19 - sent.length := by
      rw [harr]
      simp only [hsymbol, infSymlenSequenceSize, Nat.zero_add]
    have hclear : clear3BitLengths (storeLengths list sent)
        (infSymlenSequenceSize - (storeLengths list sent).symbol) =
          storeLengths list (sent ++ List.replicate (19 - sent.length) 0) := by
      rw [clear3BitLengths_eq, hleft, storeLengths_append]
    have hrange := range_map_storeLengths hsymbol sent (by omega)
    obtain ⟨arr', harr'⟩ := storeLengths_eq (sent ++ List.replicate (19 - sent.length) 0) list
    have hbound : ∀ other < 0 + 19,
        (storeLengths list (sent ++ List.replicate (19 - sent.length) 0)).lengthsBySymbol other ≤
          infLastValidLength := by
      intro other hother
      have hmem : (storeLengths list
          (sent ++ List.replicate (19 - sent.length) 0)).lengthsBySymbol other ∈
            codeLengthLengths sent := by
        rw [← hrange]
        exact List.mem_map_of_mem (List.mem_range.mpr (by omega))
      exact (codeLengthLengths_le hsmall _ hmem).trans (by decide)
    obtain ⟨list', hadd, hrep, -⟩ := add3BitLengths_spec build _ 19
      (storeLengths list (sent ++ List.replicate (19 - sent.length) 0)) 0 rfl
      (by rw [harr']; exact hlist.congr rfl rfl rfl rfl) (by decide) hbound
    rw [Nat.zero_add, hrange] at hrep
    refine ⟨list', after, ?_, hafter, hrep⟩
    rw [infSLListAdd3BitSymlens]
    simp only [hlast, hread, hclear]
    rw [show infSymlenSequenceSize = 19 from rfl, hadd]
  · intro hparse
    obtain ⟨list', after, hread⟩ := hshort hparse
    refine ⟨list', after, ?_⟩
    rw [infSLListAdd3BitSymlens]
    simp only [hlast, hread]

/-! ### The literal and the distance alphabet -/

/-- A list that is being filled with the code lengths behind `before`: the lengths `parsed` so far
are those before, those added, and the pending repetitions. -/
structure Filling (list : InfSLList) (before added parsed : List ℕ) : Prop where
  represents : Represents list (presentCodes added)
  symbol : list.symbol = added.length
  command : list.command = 0
  lengths : parsed = before ++ added ++ List.replicate list.repetitions list.huffmanLength
  last : ∀ previous, parsed.getLast? = some previous → previous = list.huffmanLength
  length_le : list.huffmanLength ≤ maxCodeLength

/-- The list after a command that repeats a length. -/
def InfSLList.repeating (list : InfSLList) (count length : ℕ) : InfSLList :=
  { list with repetitions := count, huffmanLength := length, command := 0 }

/-- What a command adds to the lengths parsed so far is what it leaves to be repeated. -/
theorem Filling.repeating {list : InfSLList} {before added parsed : List ℕ}
    (h : Filling list before added parsed) (hnone : list.repetitions = 0) {count length : ℕ}
    (hcount : 0 < count) (hlength : length ≤ maxCodeLength) :
    Filling (list.repeating count length) before added
      (parsed ++ List.replicate count length) where
  represents := h.represents.congr rfl rfl rfl rfl
  symbol := h.symbol
  command := rfl
  lengths := by
    rw [h.lengths, hnone, List.replicate_zero, List.append_nil]
    rfl
  last := by
    intro previous hprevious
    rw [List.getLast?_append_of_ne_nil _ (by simp; omega), List.getLast?_replicate,
      if_neg hcount.ne'] at hprevious
    injection hprevious with hprevious
    exact hprevious.symm
  length_le := hlength

/-- A reader of repetitions follows the parser of the extra bits. -/
theorem readRepetitions_spec {limit : ℕ} (hlimit : 7 ≤ limit) {list : InfSLList}
    {before added parsed : List ℕ} (h : Filling list before added parsed)
    (hnone : list.repetitions = 0) {bitstream : InfBS} {bits : List Bool}
    (hfaces : bitstream.Faces limit bits) (command : ℕ) {extraBits base length : ℕ}
    (hextra : extraBits ≤ 25) (hbase : 0 < base) (hlength : length ≤ maxCodeLength) :
    let parse := (parseBits extraBits bits).bind fun extra bits ↦
      .done (List.replicate (base + extra) length) bits
    (∀ run rest, parse = .done run rest →
      ∃ list' after, readRepetitions { list with command := command } bitstream extraBits base length =
          .ok (true, list', after) ∧
        after.Faces limit rest ∧ Filling list' before added (parsed ++ run) ∧
        list'.symbol = list.symbol ∧ 0 < list'.repetitions) ∧
    (parse = .short →
      ∃ list' after, readRepetitions { list with command := command } bitstream extraBits base length =
        .ok (false, list', after)) := by
  have hread := hfaces.answers_readBits hlimit hextra
  rw [readRepetitions]
  generalize bitstream.readBits extraBits = result at hread
  cases htake : parseBits extraBits bits with
  | malformed => exact ⟨fun _ _ hparse ↦ (by cases hparse), fun hparse ↦ (by cases hparse)⟩
  | short =>
    rw [htake] at hread
    cases hread with
    | short after => exact ⟨fun _ _ hparse ↦ (by cases hparse), fun _ ↦ ⟨_, after, rfl⟩⟩
  | done extra middle =>
    rw [htake] at hread
    simp only [Parse.done_bind]
    cases hread with
    | @done _ _ after hafter =>
      refine ⟨fun run rest hparse ↦ ?_, fun hparse ↦ by cases hparse⟩
      cases hparse
      exact ⟨list.repeating (base + extra) length, after, rfl, hafter,
        h.repeating hnone (by omega) hlength, rfl, Nat.add_pos_left hbase extra⟩

/-- A command follows the parser of a run. -/
theorem runCommand_spec {limit : ℕ} (hlimit : 7 ≤ limit) {list : InfSLList}
    {before added parsed : List ℕ} (h : Filling list before added parsed)
    (hnone : list.repetitions = 0) {bitstream : InfBS} {bits : List Bool}
    (hfaces : bitstream.Faces limit bits) {command : ℕ} (hcommand : command < 19) :
    (∀ run rest, parseRun command parsed bits = .done run rest →
      ∃ list' after, runCommand { list with command := command } bitstream =
          .ok (true, list', after) ∧
        after.Faces limit rest ∧ Filling list' before added (parsed ++ run) ∧
        list'.symbol = list.symbol ∧ 0 < list'.repetitions) ∧
    (parseRun command parsed bits = .short →
      ∃ list' after, runCommand { list with command := command } bitstream =
        .ok (false, list', after)) := by
  by_cases h16 : command = 16
  · subst h16
    cases hlast : parsed.getLast? with
    | none =>
      simp only [parseRun, hlast]
      exact ⟨fun _ _ hparse ↦ (by cases hparse), fun hparse ↦ (by cases hparse)⟩
    | some previous =>
      have hprevious := h.last previous hlast
      subst hprevious
      simp only [parseRun, hlast, runCommand]
      exact readRepetitions_spec hlimit h hnone hfaces 16 (by norm_num) (by norm_num) h.length_le
  by_cases h17 : command = 17
  · subst h17
    exact readRepetitions_spec hlimit h hnone hfaces 17 (by norm_num) (by norm_num) (Nat.zero_le _)
  by_cases h18 : command = 18
  · subst h18
    exact readRepetitions_spec hlimit h hnone hfaces 18 (by norm_num) (by norm_num) (Nat.zero_le _)
  have hrun : parseRun command parsed bits = .done [command] bits := by
    unfold parseRun
    split <;> simp_all
  rw [hrun, runCommand_default bitstream h16 h17 h18]
  refine ⟨fun run rest hparse ↦ ?_, fun hparse ↦ by cases hparse⟩
  cases hparse
  exact ⟨list.repeating 1 command, bitstream, rfl, hfaces,
    h.repeating hnone Nat.one_pos (by simp only [maxCodeLength]; omega), rfl, Nat.one_pos⟩

/-- The pending repetitions move to the lengths added. -/
theorem Filling.addRepetitions (build : Build) {list : InfSLList} {before added parsed : List ℕ}
    (h : Filling list before added parsed) {numberOfSymlens : ℕ}
    (hmax : numberOfSymlens ≤ infLastValidSymbol + 1) :
    ∃ list' added', addRepetitions build numberOfSymlens numberOfSymlens list = .ok list' ∧
      Filling list' before added' parsed ∧
      RepetitionsAdded numberOfSymlens list list' ∧
      (added.length ≤ numberOfSymlens → added'.length ≤ numberOfSymlens) := by
  obtain ⟨list', hadd, hrep, hcommand, hlength, hsymbol, hrepetitions⟩ :=
    addRepetitions_eq build hmax numberOfSymlens list added h.represents h.symbol
      (h.length_le.trans (by decide)) (by omega)
  have hspec := addRepetitions_spec numberOfSymlens list (by omega) hadd
  refine ⟨list', _, hadd, ⟨hrep, ?_, hcommand.trans h.command, ?_, ?_, ?_⟩, hspec, ?_⟩
  · rw [hsymbol, h.symbol, List.length_append, List.length_replicate]
  · have hsplit : List.replicate list.repetitions list.huffmanLength =
        List.replicate (min list.repetitions (numberOfSymlens - added.length)) list.huffmanLength ++
          List.replicate
            (list.repetitions - min list.repetitions (numberOfSymlens - added.length))
            list.huffmanLength := by
      rw [List.replicate_append_replicate, Nat.add_sub_cancel' (min_le_left _ _)]
    rw [h.lengths, hrepetitions, hlength, hsplit]
    simp only [List.append_assoc]
  · rw [hlength]
    exact h.last
  · rw [hlength]
    exact h.length_le
  · intro hle
    rw [List.length_append, List.length_replicate]
    omega

/-- The outer loop follows the parser of the code lengths. -/
theorem encodedSymlensLoop_spec (build : Build) {limit : ℕ} (hlimit : 7 ≤ limit)
    {table : HuffTable} {codeLengths : List ℕ} (hdecodes : Decodes table codeLengths)
    (hmaxLength : ∀ length ∈ codeLengths, length ≤ maxCodeLength) (hcodes : codeLengths.length ≤ 19)
    {numberOfSymlens count : ℕ} (hmax : numberOfSymlens ≤ infLastValidSymbol + 1)
    {before : List ℕ} (turns : ℕ) :
    ∀ (list : InfSLList) (bitstream : InfBS) (added parsed : List ℕ) (bits : List Bool) (fuel : ℕ),
      Filling list before added parsed → bitstream.Faces limit bits →
        added.length ≤ numberOfSymlens → turnsLeft numberOfSymlens list ≤ turns →
          (∀ total rest, parseLengths codeLengths (before.length + numberOfSymlens) count fuel parsed
              bits = .done total rest →
            ∃ list' after added', encodedSymlensLoop build numberOfSymlens table turns list bitstream =
                .ok (true, list', after) ∧
              after.Faces limit rest ∧ Filling list' before added' total ∧
              added'.length = numberOfSymlens) ∧
          (parseLengths codeLengths (before.length + numberOfSymlens) count fuel parsed bits =
              .short →
            ∃ list' after, encodedSymlensLoop build numberOfSymlens table turns list bitstream =
              .ok (false, list', after)) := by
  induction turns with
  | zero =>
    intro list _ _ _ _ _ _ _ _ hturns
    rw [turnsLeft] at hturns
    split at hturns <;> omega
  | succ turns ih =>
    intro list bitstream added parsed bits fuel h hfaces hle hturns
    -- where the alphabet is complete, the parser has enough
    have hcomplete : ∀ (list : InfSLList) (added : List ℕ), Filling list before added parsed →
        added.length = numberOfSymlens →
          (∀ total rest, parseLengths codeLengths (before.length + numberOfSymlens) count fuel parsed
              bits = .done total rest →
            ∃ list' after added', (.ok (true, list, bitstream) : Except Fault _) =
                .ok (true, list', after) ∧
              after.Faces limit rest ∧ Filling list' before added' total ∧
              added'.length = numberOfSymlens) ∧
          parseLengths codeLengths (before.length + numberOfSymlens) count fuel parsed bits ≠
            .short := by
      intro list added h hlength
      have henough : before.length + numberOfSymlens ≤ parsed.length := by
        rw [h.lengths, List.length_append, List.length_append]
        omega
      cases fuel with
      | zero => exact ⟨fun _ _ hparse ↦ (by cases hparse), fun hparse ↦ (by cases hparse)⟩
      | succ fuel =>
        rw [parseLengths]
        by_cases hover : count < parsed.length
        · rw [if_pos hover]
          exact ⟨fun _ _ hparse ↦ (by cases hparse), fun hparse ↦ (by cases hparse)⟩
        · rw [if_neg hover, if_pos henough]
          refine ⟨fun total rest hparse ↦ ?_, fun hparse ↦ by cases hparse⟩
          cases hparse
          exact ⟨list, bitstream, added, rfl, hfaces, h, hlength⟩
    rw [encodedSymlensLoop]
    by_cases hlt : list.symbol < numberOfSymlens
    · rw [if_pos hlt]
      obtain ⟨list₁, added₁, hadd, h₁, hadded, hle₁⟩ := h.addRepetitions build hmax
      simp only [hadd]
      by_cases hlt₁ : list₁.symbol < numberOfSymlens
      · -- the run is used up, and the next command is read
        have hnone := hadded.done hlt₁
        have hshorter : parsed.length < before.length + numberOfSymlens := by
          rw [h₁.lengths, hnone, List.replicate_zero, List.append_nil, List.length_append, ← h₁.symbol]
          omega
        have hassert : build.assert (list₁.repetitions == 0) = .ok () := by
          rw [hnone]
          exact Build.assert_true build
        simp only [if_pos hlt₁, hassert, readCommand, h₁.command, if_true]
        cases fuel with
        | zero => exact ⟨fun _ _ hparse ↦ (by cases hparse), fun hparse ↦ (by cases hparse)⟩
        | succ fuel =>
          rw [parseLengths]
          by_cases hover : count < parsed.length
          · rw [if_pos hover]
            exact ⟨fun _ _ hparse ↦ (by cases hparse), fun hparse ↦ (by cases hparse)⟩
          rw [if_neg hover, if_neg (not_le.mpr hshorter)]
          have hread := hfaces.answers_readEncodedBits hlimit hdecodes hmaxLength
          generalize bitstream.readEncodedBits table = result at hread
          cases hsymbol : parseSymbol codeLengths bits with
          | malformed => exact ⟨fun _ _ hparse ↦ (by cases hparse), fun hparse ↦ (by cases hparse)⟩
          | short =>
            rw [hsymbol] at hread
            cases hread with
            | short after => exact ⟨fun _ _ hparse ↦ (by cases hparse), fun _ ↦ ⟨_, after, rfl⟩⟩
          | done command middle =>
            have hcommand : command < 19 := (parseSymbol_lt hsymbol).trans_le hcodes
            rw [hsymbol] at hread
            simp only [Parse.done_bind]
            cases hread with
            | @done _ _ after hafter =>
              obtain ⟨hdone, hshort⟩ := runCommand_spec hlimit h₁ hnone hafter hcommand
              simp only
              cases hrun : parseRun command parsed middle with
              | malformed =>
                exact ⟨fun _ _ hparse ↦ (by cases hparse), fun hparse ↦ (by cases hparse)⟩
              | short =>
                obtain ⟨list', last, hwait⟩ := hshort hrun
                rw [hwait]
                exact ⟨fun _ _ hparse ↦ (by cases hparse), fun _ ↦ ⟨list', last, rfl⟩⟩
              | done run rest =>
                obtain ⟨list₂, last, hgo, hlast, h₂, hkeep, hpositive⟩ := hdone run rest hrun
                rw [hgo]
                exact ih list₂ last added₁ _ rest fuel h₂ hlast (hle₁ hle)
                  (Nat.le_of_lt_succ ((turnsLeft_lt hadded hlt hkeep hpositive).trans_le hturns))
      · obtain ⟨hdone, hshort⟩ := hcomplete list₁ added₁ h₁ (by have := h₁.symbol; have := hle₁ hle; omega)
        simp only [if_neg hlt₁]
        exact ⟨hdone, fun hparse ↦ absurd hparse hshort⟩
    · obtain ⟨hdone, hshort⟩ := hcomplete list added h (by have := h.symbol; omega)
      rw [if_neg hlt]
      exact ⟨hdone, fun hparse ↦ absurd hparse hshort⟩

end ZephyrThrift.Muzic
