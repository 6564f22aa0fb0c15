import ZephyrThrift.Muzic.HuffmanTable

/-!
# The symbol-length list reader

`inflater.c`, `Inf_SLList_*`: the code lengths read from the stream are kept in nineteen linked
lists, one per length, threaded through one array of elements; `infSLListGetSorted` stitches them
together by increasing length.
-/

set_option autoImplicit false
set_option relaxedAutoImplicit false

namespace ZephyrThrift.Muzic

def infLastValidLength : ℕ := 18

def infLastValidSymbol : ℕ := 290

def infSymlenSequenceSize : ℕ := 19

/-- `Inf_SLList`; pointers into `elements` are indices, `none` is `NULL`. -/
structure InfSLList where
  command : ℕ
  symbol : ℕ
  huffmanLength : ℕ
  repetitions : ℕ
  lengthsBySymbol : ℕ → ℕ
  headPtr : ℕ → Option ℕ
  tailPtr : ℕ → Option ℕ
  elements : ℕ → InfSymlen
  elementIndex : ℕ

/-- `Inf_SLList_AddSymlen`. -/
def infSLListAddSymlen (build : Build) (list : InfSLList) (symbol huffmanLength : ℕ) :
    Except Fault InfSLList := do
  build.assert (symbol ≤ infLastValidSymbol)
  build.assert (huffmanLength ≤ infLastValidLength)
  if huffmanLength = 0 then return list
  if infLastValidLength < huffmanLength then throw .headPtrIndex
  if infLastValidSymbol < list.elementIndex then throw .elementsIndex
  let newSymlen := list.elementIndex
  let elements := match list.tailPtr huffmanLength with
    | some last => Function.update list.elements last
        { list.elements last with next := some newSymlen }
    | none => list.elements
  let headPtr := match list.tailPtr huffmanLength with
    | some _ => list.headPtr
    | none => Function.update list.headPtr huffmanLength (some newSymlen)
  return { list with
    elementIndex := list.elementIndex + 1
    headPtr := headPtr
    elements := Function.update elements newSymlen ⟨symbol, huffmanLength, none⟩
    tailPtr := Function.update list.tailPtr huffmanLength (some newSymlen) }

/-- `Inf_SLList_AddRange`: the symbols from `firstSymbol` on, `count` of them. -/
def infSLListAddRange (build : Build) (firstSymbol huffmanLength : ℕ) :
    ℕ → InfSLList → Except Fault InfSLList
  | 0, list => .ok list
  | count + 1, list =>
    match infSLListAddSymlen build list firstSymbol huffmanLength with
    | .error fault => .error fault
    | .ok list => infSLListAddRange build (firstSymbol + 1) huffmanLength count list

def symbolOrder : List ℕ := [16, 17, 18, 0, 8, 7, 9, 6, 10, 5, 11, 4, 12, 3, 13, 2, 14, 1, 15]

/-- The first loop of `Inf_SLList_Add3BitSymlens`: the lengths present in the stream. -/
def read3BitLengths (list : InfSLList) (bitstream : InfBS) :
    ℕ → Except Fault (Bool × InfSLList × InfBS)
  | 0 => .ok (true, list, bitstream)
  | count + 1 =>
    match bitstream.readBits 3 with
    | .error fault => .error fault
    | .ok (none, bitstream) => .ok (false, list, bitstream)
    | .ok (some length, bitstream) =>
      read3BitLengths
        { list with
          lengthsBySymbol :=
            Function.update list.lengthsBySymbol (symbolOrder.getD list.symbol 0) length
          symbol := list.symbol + 1 }
        bitstream count

/-- The second loop of `Inf_SLList_Add3BitSymlens`: the lengths that are absent are zero. -/
def clear3BitLengths (list : InfSLList) : ℕ → InfSLList
  | 0 => list
  | count + 1 =>
    clear3BitLengths
      { list with
        lengthsBySymbol := Function.update list.lengthsBySymbol (symbolOrder.getD list.symbol 0) 0
        symbol := list.symbol + 1 }
      count

/-- The third loop of `Inf_SLList_Add3BitSymlens`, from `symbol` on. -/
def add3BitLengths (build : Build) (symbol : ℕ) : ℕ → InfSLList → Except Fault InfSLList
  | 0, list => .ok list
  | count + 1, list =>
    if 0 < list.lengthsBySymbol symbol then
      match infSLListAddSymlen build list symbol (list.lengthsBySymbol symbol) with
      | .error fault => .error fault
      | .ok list => add3BitLengths build (symbol + 1) count list
    else add3BitLengths build (symbol + 1) count list

/-- `Inf_SLList_Add3BitSymlens`. -/
def infSLListAdd3BitSymlens (build : Build) (list : InfSLList) (bitstream : InfBS)
    (numberOfSymlens : ℕ) : Except Fault (Bool × InfSLList × InfBS) :=
  let last := min numberOfSymlens infSymlenSequenceSize
  match read3BitLengths list bitstream (last - list.symbol) with
  | .error fault => .error fault
  | .ok (false, list, bitstream) => .ok (false, list, bitstream)
  | .ok (true, list, bitstream) =>
    match add3BitLengths build 0 infSymlenSequenceSize
        (clear3BitLengths list (infSymlenSequenceSize - list.symbol)) with
    | .error fault => .error fault
    | .ok list => .ok (true, list, bitstream)

/-- The inner loop of `Inf_SLList_AddEncodedSymlens`: the pending repetitions, as far as there is
room for them. -/
def addRepetitions (build : Build) (numberOfSymlens : ℕ) :
    ℕ → InfSLList → Except Fault InfSLList
  | 0, list => .ok list
  | fuel + 1, list =>
    if 0 < list.repetitions ∧ list.symbol < numberOfSymlens then
      match infSLListAddSymlen build list list.symbol list.huffmanLength with
      | .error fault => .error fault
      | .ok list =>
        addRepetitions build numberOfSymlens fuel
          { list with symbol := list.symbol + 1, repetitions := list.repetitions - 1 }
    else .ok list

/-- A command whose extra bits say how often a length is repeated: `some` when they were there. -/
def readRepetitions (list : InfSLList) (bitstream : InfBS) (extraBits base huffmanLength : ℕ) :
    Except Fault (Bool × InfSLList × InfBS) :=
  match bitstream.readBits extraBits with
  | .error fault => .error fault
  | .ok (none, bitstream) => .ok (false, list, bitstream)
  | .ok (some value, bitstream) =>
    .ok (true, { list with repetitions := base + value, huffmanLength := huffmanLength, command := 0 },
      bitstream)

/-- The switch of `Inf_SLList_AddEncodedSymlens` on the current command. -/
def runCommand (list : InfSLList) (bitstream : InfBS) : Except Fault (Bool × InfSLList × InfBS) :=
  match list.command with
  | 16 => readRepetitions list bitstream 2 3 list.huffmanLength
  | 17 => readRepetitions list bitstream 3 3 0
  | 18 => readRepetitions list bitstream 7 11 0
  | length =>
    .ok (true, { list with repetitions := 1, huffmanLength := length, command := 0 }, bitstream)

/-- The part of `Inf_SLList_AddEncodedSymlens` that reads a new command, unless one is pending. -/
def readCommand (decoder : HuffTable) (list : InfSLList) (bitstream : InfBS) :
    Except Fault (Bool × InfSLList × InfBS) :=
  if list.command = 0 then
    match bitstream.readEncodedBits decoder with
    | .error fault => .error fault
    | .ok (none, bitstream) => .ok (false, list, bitstream)
    | .ok (some command, bitstream) => runCommand { list with command := command } bitstream
  else runCommand list bitstream

/-- The outer loop of `Inf_SLList_AddEncodedSymlens`. -/
def encodedSymlensLoop (build : Build) (numberOfSymlens : ℕ) (decoder : HuffTable) :
    ℕ → InfSLList → InfBS → Except Fault (Bool × InfSLList × InfBS)
  | 0, _, _ => .error .endlessLoop
  | fuel + 1, list, bitstream =>
    if list.symbol < numberOfSymlens then
      match addRepetitions build numberOfSymlens numberOfSymlens list with
      | .error fault => .error fault
      | .ok list =>
        if list.symbol < numberOfSymlens then
          match build.assert (list.repetitions == 0) with
          | .error fault => .error fault
          | .ok () =>
            match readCommand decoder list bitstream with
            | .error fault => .error fault
            | .ok (false, list, bitstream) => .ok (false, list, bitstream)
            | .ok (true, list, bitstream) =>
              encodedSymlensLoop build numberOfSymlens decoder fuel list bitstream
        else .ok (true, list, bitstream)
    else .ok (true, list, bitstream)

/-- `Inf_SLList_AddEncodedSymlens`. Every turn but the first adds at least one symbol. -/
def infSLListAddEncodedSymlens (build : Build) (list : InfSLList) (bitstream : InfBS)
    (numberOfSymlens : ℕ) (decoder : HuffTable) : Except Fault (Bool × InfSLList × InfBS) :=
  encodedSymlensLoop build numberOfSymlens decoder (numberOfSymlens + 2) list bitstream

/-- The scan of `Inf_SLList_GetSorted` for the first list that is not empty. -/
def scanHeads (headPtr : ℕ → Option ℕ) : ℕ → ℕ → Except Fault ℕ
  | 0, _ => .error .headPtrIndex
  | fuel + 1, currentLength =>
    if headPtr currentLength = none then scanHeads headPtr fuel (currentLength + 1)
    else .ok currentLength

/-- The two nested loops of `Inf_SLList_GetSorted` that connect the lists. -/
def linkLists (headPtr tailPtr : ℕ → Option ℕ) :
    ℕ → ℕ → ℕ → (ℕ → InfSymlen) → (ℕ → InfSymlen)
  | 0, _, _, elements => elements
  | fuel + 1, lastValidLength, currentLength, elements =>
    let currentLength := currentLength + 1
    if currentLength < infLastValidLength ∧ headPtr currentLength = none then
      linkLists headPtr tailPtr fuel lastValidLength currentLength elements
    else
      let elements := match tailPtr lastValidLength with
        | some last => Function.update elements last
            { elements last with next := headPtr currentLength }
        | none => elements
      if currentLength < infLastValidLength then
        linkLists headPtr tailPtr fuel currentLength currentLength elements
      else elements

/-- The chain that starts at an element, as a list. -/
def followNext (elements : ℕ → InfSymlen) : ℕ → Option ℕ → List InfSymlen
  | _, none => []
  | 0, some _ => []
  | fuel + 1, some element =>
    elements element :: followNext elements fuel (elements element).next

/-- `Inf_SLList_GetSorted`. -/
def infSLListGetSorted (list : InfSLList) (resetRepetitions : Bool) :
    Except Fault (List InfSymlen × InfSLList) :=
  match scanHeads list.headPtr (infLastValidLength + 1) 0 with
  | .error fault => .error fault
  | .ok firstLength =>
    if firstLength = infLastValidLength then .error .headPtrIndex
    else
      let elements := linkLists list.headPtr list.tailPtr (infLastValidLength - firstLength)
        firstLength firstLength list.elements
      let firstElement := followNext elements (infLastValidSymbol + 1) (list.headPtr firstLength)
      .ok (firstElement,
        { list with
          command := if resetRepetitions then 0 else list.command
          huffmanLength := if resetRepetitions then 0 else list.huffmanLength
          repetitions := if resetRepetitions then 0 else list.repetitions
          elementIndex := 0
          symbol := 0
          headPtr := fun _ ↦ none
          tailPtr := fun _ ↦ none
          elements := elements })

end ZephyrThrift.Muzic
