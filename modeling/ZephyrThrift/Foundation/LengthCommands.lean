import ZephyrThrift.Foundation.DeflateFormat

/-!
# Run-length coded code lengths

RFC 1951, 3.2.7: the code lengths of the literal and of the distance alphabet are sent as one
sequence of commands, each of which adds a length or a run of equal lengths. `expandCommands` says
what the commands stand for and `encodeCommands` how they are sent; the parser of the reference
decoder reads back what was sent (`parseLengths_encodeCommands`).
-/

set_option autoImplicit false
set_option relaxedAutoImplicit false

namespace ZephyrThrift.Foundation

/-- The number of extra bits behind a symbol of the code length alphabet. -/
def commandExtraBits (symbol : ℕ) : ℕ :=
  match symbol with
  | 16 => 2
  | 17 => 3
  | 18 => 7
  | _ => 0

/-- A symbol of the code length alphabet, with the value of its extra bits. -/
structure LengthCommand where
  symbol : ℕ
  extra : ℕ
  symbol_lt : symbol < 19
  extra_lt : extra < 2 ^ commandExtraBits symbol

/-- What a command adds to the code lengths so far. -/
def LengthCommand.run (command : LengthCommand) (lengths : List ℕ) : List ℕ :=
  match command.symbol with
  | 16 => List.replicate (3 + command.extra) (lengths.getLastD 0)
  | 17 => List.replicate (3 + command.extra) 0
  | 18 => List.replicate (11 + command.extra) 0
  | length => [length]

/-- The code lengths that a sequence of commands expands to, behind those so far. -/
def expandCommands (lengths : List ℕ) : List LengthCommand → List ℕ
  | [] => lengths
  | command :: commands => expandCommands (lengths ++ command.run lengths) commands

/-- The bits of a sequence of commands, under the code of the code length alphabet. -/
def encodeCommands (codeLengths : List ℕ) (commands : List LengthCommand) : List Bool :=
  commands.flatMap fun command ↦
    codeWord codeLengths command.symbol ++ bitsOf (commandExtraBits command.symbol) command.extra

theorem encodeCommands_cons (codeLengths : List ℕ) (command : LengthCommand)
    (commands : List LengthCommand) (rest : List Bool) :
    encodeCommands codeLengths (command :: commands) ++ rest =
      codeWord codeLengths command.symbol ++
        (bitsOf (commandExtraBits command.symbol) command.extra ++
          (encodeCommands codeLengths commands ++ rest)) := by
  simp only [encodeCommands, List.flatMap_cons, List.append_assoc]

theorem prefix_expandCommands (commands : List LengthCommand) :
    ∀ lengths, lengths <+: expandCommands lengths commands := by
  induction commands with
  | nil => intro lengths; exact List.prefix_refl lengths
  | cons command commands ih =>
    intro lengths
    exact (List.prefix_append lengths _).trans (ih _)

theorem expandCommands_append (first second : List LengthCommand) :
    ∀ lengths, expandCommands lengths (first ++ second) =
      expandCommands (expandCommands lengths first) second := by
  induction first with
  | nil => intro lengths; rfl
  | cons command first ih => intro lengths; exact ih _

theorem parseBits_bitsOf {count value : ℕ} (h : value < 2 ^ count) (rest : List Bool) :
    parseBits count (bitsOf count value ++ rest) = .done value rest := by
  rw [parseBits_eq_done, takeBits_bitsOf, Nat.mod_eq_of_lt h]

/-- The parser of a run finds what the command adds. -/
theorem parseRun_command (command : LengthCommand) {lengths : List ℕ}
    (hfirst : lengths = [] → command.symbol ≠ 16) (rest : List Bool) :
    parseRun command.symbol lengths
        (bitsOf (commandExtraBits command.symbol) command.extra ++ rest) =
      .done (command.run lengths) rest := by
  obtain ⟨symbol, extra, hsymbol, hextra⟩ := command
  simp only at hfirst ⊢
  by_cases h16 : symbol = 16
  · subst h16
    have hne : lengths ≠ [] := fun hnil ↦ hfirst hnil rfl
    have hlast : lengths.getLast? = some (lengths.getLastD 0) := by
      rw [List.getLastD_eq_getLast?, List.getLast?_eq_some_getLast hne, Option.getD_some]
    have hbits : parseBits 2 (bitsOf (commandExtraBits 16) extra ++ rest) = .done extra rest :=
      parseBits_bitsOf hextra rest
    simp only [parseRun, hlast, LengthCommand.run, hbits, Parse.done_bind]
  by_cases h17 : symbol = 17
  · subst h17
    have hbits : parseBits 3 (bitsOf (commandExtraBits 17) extra ++ rest) = .done extra rest :=
      parseBits_bitsOf hextra rest
    simp only [parseRun, LengthCommand.run, hbits, Parse.done_bind]
  by_cases h18 : symbol = 18
  · subst h18
    have hbits : parseBits 7 (bitsOf (commandExtraBits 18) extra ++ rest) = .done extra rest :=
      parseBits_bitsOf hextra rest
    simp only [parseRun, LengthCommand.run, hbits, Parse.done_bind]
  have hnone : commandExtraBits symbol = 0 := by
    unfold commandExtraBits
    split <;> simp_all
  have hparse : parseRun symbol lengths rest = .done [symbol] rest := by
    unfold parseRun
    split <;> simp_all
  have hrun : (LengthCommand.mk symbol extra hsymbol hextra).run lengths = [symbol] := by
    unfold LengthCommand.run
    split <;> simp_all
  rw [hnone, bitsOf, List.nil_append, hparse, hrun]

theorem parseSymbol_codeWord {lengths : List ℕ} {symbol maxBits : ℕ}
    (hkraft : KraftLe maxBits lengths) (hpos : 0 < lengthAt lengths symbol) (rest : List Bool) :
    parseSymbol lengths (codeWord lengths symbol ++ rest) = .done symbol rest := by
  rw [parseSymbol, takeSymbol_codeWord hkraft hpos]

/-- A command adds at least one length. -/
theorem LengthCommand.length_run_pos (command : LengthCommand) (lengths : List ℕ) :
    0 < (command.run lengths).length := by
  unfold LengthCommand.run
  split <;> simp only [List.length_replicate, List.length_singleton] <;> omega

theorem length_le_expandCommands (commands : List LengthCommand) :
    ∀ lengths, lengths.length + commands.length ≤ (expandCommands lengths commands).length := by
  induction commands with
  | nil => intro lengths; exact le_rfl
  | cons command commands ih =>
    intro lengths
    have hrest := ih (lengths ++ command.run lengths)
    have hrun := command.length_run_pos lengths
    rw [List.length_append] at hrest
    rw [List.length_cons, expandCommands]
    omega

/-- Commands add no length that is longer than those of Huffman codes. -/
theorem LengthCommand.run_le (command : LengthCommand) {lengths : List ℕ}
    (h : ∀ length ∈ lengths, length ≤ 15) : ∀ length ∈ command.run lengths, length ≤ 15 := by
  have hlast : lengths.getLastD 0 ≤ 15 := by
    rcases List.eq_nil_or_concat lengths with rfl | ⟨front, last, rfl⟩
    · exact Nat.zero_le _
    · rw [List.concat_eq_append, List.getLastD_concat]
      exact h last (by simp)
  have hsymbol := command.symbol_lt
  intro length hmem
  unfold LengthCommand.run at hmem
  split at hmem
  · rw [List.eq_of_mem_replicate hmem]; exact hlast
  · rw [List.eq_of_mem_replicate hmem]; exact Nat.zero_le _
  · rw [List.eq_of_mem_replicate hmem]; exact Nat.zero_le _
  · next h16 h17 h18 =>
    rw [List.mem_singleton.mp hmem]
    have h16' : command.symbol ≠ 16 := h16
    have h17' : command.symbol ≠ 17 := h17
    have h18' : command.symbol ≠ 18 := h18
    omega

theorem expandCommands_le (commands : List LengthCommand) :
    ∀ lengths, (∀ length ∈ lengths, length ≤ 15) →
      ∀ length ∈ expandCommands lengths commands, length ≤ 15 := by
  induction commands with
  | nil => intro lengths h; exact h
  | cons command commands ih =>
    intro lengths h
    refine ih _ fun length hmem ↦ ?_
    rcases List.mem_append.mp hmem with hold | hnew
    · exact h length hold
    · exact command.run_le h length hnew

/-- The parser reads commands until it has enough lengths. -/
theorem parseLengths_encodeCommands {codeLengths : List ℕ} {maxBits : ℕ}
    (hkraft : KraftLe maxBits codeLengths) {enough count : ℕ} (henough : enough ≤ count) (rest : List Bool)
    (commands : List LengthCommand) :
    ∀ lengths, (∀ command ∈ commands, 0 < lengthAt codeLengths command.symbol) →
      (lengths = [] → ∀ command ∈ commands.head?, command.symbol ≠ 16) →
        (expandCommands lengths commands).length = count →
          ∃ done todo fuel, commands = done ++ todo ∧
            parseLengths codeLengths enough count fuel lengths
                (encodeCommands codeLengths commands ++ rest) =
              .done (expandCommands lengths done) (encodeCommands codeLengths todo ++ rest) ∧
            enough ≤ (expandCommands lengths done).length := by
  induction commands with
  | nil =>
    intro lengths _ _ hcount
    simp only [expandCommands] at hcount
    refine ⟨[], [], 1, rfl, ?_, by simp only [expandCommands]; omega⟩
    rw [parseLengths, if_neg (by omega), if_pos (by omega)]
    rfl
  | cons command commands ih =>
    intro lengths hassigned hfirst hcount
    have hle := (prefix_expandCommands (command :: commands) lengths).length_le
    by_cases hready : enough ≤ lengths.length
    · refine ⟨[], command :: commands, 1, rfl, ?_, hready⟩
      rw [parseLengths, if_neg (by omega), if_pos hready]
      rfl
    · obtain ⟨hhead, htail⟩ := List.forall_mem_cons.mp hassigned
      have hrun := command.length_run_pos lengths
      obtain ⟨done, todo, fuel, hsplit, hparse, hlong⟩ := ih (lengths ++ command.run lengths) htail
        (fun hnil ↦ by
          have := congrArg List.length hnil
          rw [List.length_append, List.length_nil] at this
          omega) hcount
      refine ⟨command :: done, todo, fuel + 1, by rw [hsplit, List.cons_append], ?_, hlong⟩
      rw [parseLengths, if_neg (by omega), if_neg hready, encodeCommands_cons,
        parseSymbol_codeWord hkraft hhead, Parse.done_bind,
        parseRun_command command (fun hnil ↦ hfirst hnil command rfl), Parse.done_bind]
      exact hparse

end ZephyrThrift.Foundation
