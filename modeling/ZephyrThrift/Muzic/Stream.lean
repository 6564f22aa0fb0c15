import Mathlib

/-!
# The stream interface of muzic

`include/zlib.h`: the return codes, the flush modes and the `z_stream` record shared by `deflate` and
`inflate`. Memory is a function from addresses to bytes. Counters and pointers are natural numbers;
the two subtractions of `inflate` that can wrap are computed modulo `2^32`.

What C leaves undefined is a `Fault`: an operation that would index outside an array, follow an unset
pointer or shift by the width of its operand has no value, and neither has a failed assertion.
`Build` says whether the assertions are compiled in, and what a read behind the window ring returns
when such a read is to be modelled as the read of an arbitrary byte.
-/

set_option autoImplicit false
set_option relaxedAutoImplicit false

namespace ZephyrThrift.Muzic

/-- The ways in which an execution leaves the defined part of C, or does not end. -/
inductive Fault
  | assertion
  | headPtrIndex
  | elementsIndex
  | reverseIndex
  | tableIndex
  | ringIndex
  | inputRange
  | sourceRange
  | heapRange
  | badFree
  | shiftWidth
  | unsetPointer
  | endlessLoop
  deriving DecidableEq, Repr

/-- How the library was built: with `NDEBUG` or not, and what lies behind the window ring (`none`
when a read there is undefined). -/
structure Build where
  ndebug : Bool
  behindRing : Option (ℕ → UInt8)

/-- `assert(condition)`. -/
def Build.assert (build : Build) (condition : Bool) : Except Fault Unit :=
  if build.ndebug || condition then .ok () else .error .assertion

@[simp] theorem Build.assert_true (build : Build) : build.assert true = .ok () := by
  simp [Build.assert]

theorem bind_ok {ε α β : Type} {x : Except ε α} {f : α → Except ε β} {b : β}
    (h : x >>= f = .ok b) : ∃ a, x = .ok a ∧ f a = .ok b := by
  cases x with
  | error fault => cases h
  | ok a => exact ⟨a, rfl, h⟩

theorem map_ok {ε α β : Type} {x : Except ε α} {f : α → β} {b : β} (h : x.map f = .ok b) :
    ∃ a, x = .ok a ∧ f a = b := by
  cases x with
  | error fault => cases h
  | ok a => cases h; exact ⟨a, rfl, rfl⟩

/-- `Z_OK`, `Z_STREAM_END`, `Z_DATA_ERROR`, `Z_BUF_ERROR`. -/
inductive ZCode
  | ok
  | streamEnd
  | dataError
  | bufError
  deriving DecidableEq, Repr

/-- The flush argument of `deflate` and `inflate`. -/
inductive Flush
  | noFlush
  | partialFlush
  | syncFlush
  | fullFlush
  | finish
  | block
  | trees
  deriving DecidableEq, Repr

abbrev Memory := ℕ → UInt8

/-- The `count` bytes of memory from `address` on. -/
def Memory.bytes (memory : Memory) (address count : ℕ) : List UInt8 :=
  (List.range count).map fun offset ↦ memory (address + offset)

@[simp] theorem Memory.length_bytes (memory : Memory) (address count : ℕ) :
    (memory.bytes address count).length = count := by
  simp [Memory.bytes]

theorem Memory.getElem_bytes (memory : Memory) (address count offset : ℕ)
    (h : offset < (memory.bytes address count).length) :
    (memory.bytes address count)[offset] = memory (address + offset) := by
  simp [Memory.bytes]

theorem Memory.bytes_add (memory : Memory) (address first second : ℕ) :
    memory.bytes address (first + second) =
      memory.bytes address first ++ memory.bytes (address + first) second := by
  apply List.ext_getElem
  · simp
  · intro offset h₁ h₂
    rw [List.getElem_append]
    split
    · simp only [Memory.getElem_bytes]
    · next hge =>
      simp only [Memory.length_bytes, not_lt] at hge
      simp only [Memory.getElem_bytes, Memory.length_bytes]
      congr 1
      omega

/-- `z_stream`, without the internal state and the fields that neither side reads. -/
structure ZStream where
  nextIn : ℕ
  availIn : ℕ
  totalIn : ℕ
  nextOut : ℕ
  availOut : ℕ
  totalOut : ℕ
  msg : Option String
  adler : ℕ
  deriving DecidableEq, Repr

end ZephyrThrift.Muzic
