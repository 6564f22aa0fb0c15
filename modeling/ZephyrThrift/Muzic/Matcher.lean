import ZephyrThrift.Muzic.StaticDeflate

/-!
# The hash-chain matcher

`genlz77.c`, `uzlib_compress`: a table of the last position of every hash of three bytes. The source
is a list of bytes and a pointer into it an index; the pointer `top`, which may lie before the
source, is an integer.
-/

set_option autoImplicit false
set_option relaxedAutoImplicit false

namespace ZephyrThrift.Muzic

def minMatch : ℕ := 3

def maxMatch : ℕ := 258

/-- A read of the source. -/
def readSource (source : List UInt8) (index : ℕ) : Except Fault UInt8 :=
  match source[index]? with
  | some byte => .ok byte
  | none => .error .sourceRange

/-- `HASH`. -/
def hashAt (hashBits : ℕ) (source : List UInt8) (p : ℕ) : Except Fault ℕ := do
  let p0 ← readSource source p
  let p1 ← readSource source (p + 1)
  let p2 ← readSource source (p + 2)
  let v := (p0.toNat <<< 16) ||| (p1.toNat <<< 8) ||| p2.toNat
  return ((((v >>> (3 * 8 - hashBits) : ℕ) : ℤ) - (v : ℤ)) % 2 ^ hashBits).toNat

/-- `!memcmp(source + first, source + second, count)`. -/
def memEqual (source : List UInt8) (first second : ℕ) : ℕ → Except Fault Bool
  | 0 => .ok true
  | count + 1 => do
    let a ← readSource source first
    let b ← readSource source second
    if a = b then memEqual source (first + 1) (second + 1) count else return false

/-- The loop that extends a match: the length reached. -/
def extendMatch (source : List UInt8) (top : ℤ) : ℕ → ℕ → ℕ → ℕ → Except Fault ℕ
  | 0, _, _, _ => .error .endlessLoop
  | fuel + 1, src, m, len => do
    let a ← readSource source src
    let b ← readSource source m
    if a = b ∧ len < maxMatch ∧ (src : ℤ) < top then
      extendMatch source top fuel (src + 1) (m + 1) (len + 1)
    else return len

/-- The position to match with, if the bucket holds one that qualifies. -/
def candidate (data : UzlibComp) (source : List UInt8) (src : ℕ) (subs : Option ℕ) :
    Except Fault (Option ℕ) :=
  match subs with
  | none => .ok none
  | some subs =>
    if subs < src ∧ src - subs ≤ data.dictSize then do
      let equal ← memEqual source src subs minMatch
      return if equal then some subs else none
    else .ok none

/-- The first loop of `uzlib_compress`; it returns the position where it ends. -/
def compressLoop (build : Build) (source : List UInt8) (top : ℤ) :
    ℕ → ℕ → UzlibComp → Except Fault (ℕ × UzlibComp)
  | 0, _, _ => .error .endlessLoop
  | fuel + 1, src, data =>
    if (src : ℤ) < top then do
      let h ← hashAt data.hashBits source src
      let subs := data.hashTable h
      let data := { data with hashTable := Function.update data.hashTable h (some src) }
      match ← candidate data source src subs with
      | some subs => do
        let len ← extendMatch source top maxMatch (src + minMatch) (subs + minMatch) minMatch
        let data ← zlibMatch build data (src - subs) len
        compressLoop build source top fuel (src + len) data
      | none => do
        let byte ← readSource source src
        let data ← zlibLiteral build data byte
        compressLoop build source top fuel (src + 1) data
    else .ok (src, data)

/-- The second loop of `uzlib_compress`, over the tail of the source. -/
def tailLoop (build : Build) (source : List UInt8) :
    ℕ → ℕ → UzlibComp → Except Fault UzlibComp
  | 0, _, _ => .error .endlessLoop
  | fuel + 1, src, data =>
    if src < source.length then do
      let byte ← readSource source src
      let data ← zlibLiteral build data byte
      tailLoop build source fuel (src + 1) data
    else .ok data

/-- `uzlib_compress`. -/
def uzlibCompress (build : Build) (data : UzlibComp) (source : List UInt8) :
    Except Fault UzlibComp := do
  let (src, data) ←
    compressLoop build source ((source.length : ℤ) - minMatch) (source.length + 1) 0 data
  tailLoop build source (source.length + 1) src data

end ZephyrThrift.Muzic
