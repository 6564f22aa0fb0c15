import ZephyrThrift.Muzic.Checksum
import ZephyrThrift.Muzic.ChunkBound
import ZephyrThrift.Muzic.RoundTrip

/-!
# What histories of calls decode to

Whatever the windows are, the output of calls that do not finish, with what is still pending, is a
header and blocks for the chunks that were consumed (`DeflateCalls.flushed`). The blocks do not look
back, so a decoder can start at every place where nothing was pending (`inflate_fromFlush`). What a
finishing call stores is a well-formed stream of its own chunk, except for a checksum that takes in
every byte flushed before (`finished_wellFormed_iff`).
-/

set_option autoImplicit false
set_option relaxedAutoImplicit false

namespace ZephyrThrift.Muzic

open Foundation

/-! ### One call -/

/-- What a call does to the output: it moves on in what is pending, it puts a chunk behind that, or it
refuses to finish. -/
inductive Flows (strm : ZStream) (ustate : UzlibComp) (flush : Flush) (pending input consumed : List UInt8)
    (r : DeflateResult) : Prop
  | moves (pending' : List UInt8) (hstored : r.stored ++ pending' = pending) (hconsumed : consumed = [])
      (hcode : r.code = .ok) (hadler : r.strm.adler = strm.adler)
      (hsame : r.state.compDisabled = ustate.compDisabled)
      (hdelivering : Delivering r.state r.strm.totalOut pending')
  | chunk {bytes : List UInt8} {adlerV : ℕ} (pending' : List UInt8) (hadlerV : adlerV = muzicAdler32 input strm.adler)
      (hchunk : ChunkBytes flush ustate.compDisabled adlerV input bytes) (hconsumed : consumed = input)
      (hstored : r.stored ++ pending' = pending ++ bytes) (hlast : flush = .finish → pending' = [])
      (hcode : r.code = if flush = .finish then .streamEnd else .ok)
      (hadler : r.strm.adler = if flush = .finish then strm.adler else adlerV)
      (hnext : r.state.compDisabled = decide (flush = .finish))
      (hdelivering : Delivering r.state r.strm.totalOut pending')
  | refused (hflush : flush = .finish) (hcode : r.code = .bufError) (hadler : r.strm.adler = strm.adler)

section Calls

variable {build : Build} {memory : Memory} {strm : ZStream} {ustate : UzlibComp} {flush : Flush}
  {pending : List UInt8} {r : DeflateResult}

/-- A chunk behind the output that was pending, in a state at rest. -/
theorem ChunkCall.flows {rested : UzlibComp} {strm' : ZStream} {consumed : List UInt8}
    (h : ChunkCall build memory strm' rested flush r) (hidle : Idle rested)
    (hsame : rested.compDisabled = ustate.compDisabled) (hadler : strm'.adler = strm.adler)
    (hnext : strm'.nextIn = strm.nextIn) (havail : strm'.availIn = strm.availIn)
    (hconsumed : r.strm.availIn = 0 → consumed = memory.bytes strm.nextIn strm.availIn) :
    Flows strm ustate flush pending (memory.bytes strm.nextIn strm.availIn) consumed
      { r with stored := pending ++ r.stored } := by
  cases h with
  | nothing hin hflush =>
    refine .moves [] (by simp) ?_ rfl hadler hsame (hidle.delivering _)
    rw [hconsumed hin, ← havail, hin]
    rfl
  | @delivers encoded bytes adlerV hadlerV hencoded _ _ =>
    rw [hnext, havail] at hencoded hadlerV
    refine .chunk [] (by rw [hadlerV, hadler]) (hsame ▸ hencoded.chunk) (hconsumed rfl)
      (by simp) (fun _ ↦ rfl) rfl ?_ hencoded.compDisabled
      ⟨hencoded.kept.dictSize.trans hidle.dictSize, .inl ⟨rfl, rfl⟩⟩
    simp only [ZStream.chunkRead, hadler, ite_not]
  | @spills encoded bytes adlerV hadlerV hencoded _ hflush hroom =>
    rw [hnext, havail] at hencoded hadlerV
    have hlength : (bytes.drop strm'.availOut).length = bytes.length - strm'.availOut :=
      List.length_drop
    have hpending : bytes.drop strm'.availOut ≠ [] := by
      rw [← List.length_pos_iff, hlength]
      omega
    refine .chunk (bytes.drop strm'.availOut) (by rw [hadlerV, hadler])
      (hsame ▸ hencoded.chunk) (hconsumed rfl) ?_ (fun hfinish ↦ absurd hfinish hflush)
      (if_neg hflush).symm ?_ hencoded.compDisabled
      ⟨hencoded.kept.dictSize.trans hidle.dictSize, .inr ⟨hpending, hlength.symm, bytes, rfl, rfl⟩⟩
    · rw [List.append_assoc, List.take_append_drop]
    · simp only [ZStream.chunkRead, hadler, ite_not]
  | refuses _ _ hflush _ =>
    refine .refused hflush rfl ?_
    simp only [ZStream.chunkRead, hflush, ne_eq, not_true_eq_false, if_false, hadler]

/-- What any call does, in a state where output may be pending. -/
theorem DeflateStep.flows (h : DeflateStep build memory strm ustate flush pending r)
    (hdelivering : Delivering ustate strm.totalOut pending) :
    Flows strm ustate flush pending (memory.bytes strm.nextIn strm.availIn)
      (DeflateCall.mk memory strm ustate flush r).consumed r := by
  cases h with
  | @stays block hblock hdrop hroom =>
    have hlength : (pending.drop strm.availOut).length = pending.length - strm.availOut :=
      List.length_drop
    have hpending : pending.drop strm.availOut ≠ [] := by
      rw [← List.length_pos_iff, hlength]
      omega
    refine .moves _ (List.take_append_drop strm.availOut pending) (if_pos rfl) rfl rfl rfl
      ⟨hdelivering.dictSize, .inr ⟨hpending, hlength.symm, block, ?_, ?_⟩⟩
    · simp only [ZStream.drained, Nat.cast_add]
    · rw [ZStream.drained, ← hdrop, List.drop_drop]
  | drains _ _ _ =>
    exact .moves [] (List.append_nil _) (if_pos rfl) rfl rfl rfl
      ⟨hdelivering.dictSize, .inl ⟨rfl, rfl⟩⟩
  | continues _ _ _ hchunk =>
    exact hchunk.flows ⟨rfl, hdelivering.dictSize⟩ rfl rfl rfl rfl fun hread ↦
      @consumed_of_read memory strm ustate flush _ hread
  | fresh hpending hchunk =>
    subst hpending
    exact hchunk.flows hdelivering.idle rfl rfl rfl rfl consumed_of_read

end Calls

/-! ### Blocks -/

/-- Bytes that are blocks for the input, behind any output and in front of any other bytes. -/
def BlocksFor (bytes input : List UInt8) : Prop :=
  ∀ history more, OpenBlocks history (bytesBits (bytes ++ more)) (history ++ input) (bytesBits more)

theorem BlocksFor.append {bytes bytes' input input' : List UInt8} (h : BlocksFor bytes input)
    (h' : BlocksFor bytes' input') : BlocksFor (bytes ++ bytes') (input ++ input') := by
  intro history more
  rw [List.append_assoc, ← List.append_assoc history]
  exact (h history (bytes' ++ more)).trans (h' (history ++ input) more)

/-- The output of calls that do not finish, where `first` says whether a header is due in front of it
and `next` whether one is due behind it. -/
inductive Flushed (first : Bool) (stream input : List UInt8) (next : Bool) : Prop
  | nothing (hstream : stream = []) (hinput : input = []) (hnext : next = first)
  | blocks {body : List UInt8} (hstream : stream = (if first = true then [0x78, 0x01] else []) ++ body)
      (hblocks : BlocksFor body input) (hnext : next = false)

/-- Another chunk. -/
theorem Flushed.chunk {first next : Bool} {stream input bytes more : List UInt8} {flush : Flush}
    {adlerV : ℕ} (h : Flushed first stream input next) (hflush : flush ≠ .finish)
    (hchunk : ChunkBytes flush next adlerV more bytes) :
    Flushed first (stream ++ bytes) (input ++ more) false := by
  obtain ⟨body, rfl, hblocks⟩ := openBlocks_chunk hflush hchunk
  have hheader : chunkHeader flush next = if next = true then [0x78, 0x01] else [] := by
    simp only [chunkHeader, hflush, false_or]
  rw [hheader]
  cases h with
  | nothing hstream hinput hnext =>
    subst hstream hinput hnext
    exact .blocks rfl hblocks rfl
  | @blocks body' hstream hblocks' hnext =>
    subst hstream hnext
    exact .blocks (List.append_assoc _ _ _) (hblocks'.append hblocks) rfl

/-! ### Histories -/

/-- Calls one after the other, from some point of a history on. -/
inductive DeflateCalls (build : Build) (strm₀ : ZStream) (ustate₀ : UzlibComp) :
    List DeflateCall → ZStream → UzlibComp → Prop
  | nil : DeflateCalls build strm₀ ustate₀ [] strm₀ ustate₀
  | call {calls : List DeflateCall} {strm strm' : ZStream} {ustate : UzlibComp} {memory : Memory}
      {flush : Flush} {r : DeflateResult} (h : DeflateCalls build strm₀ ustate₀ calls strm ustate)
      (hstrm : Hands strm strm') (hr : deflate build memory strm' ustate flush = .ok r) :
      DeflateCalls build strm₀ ustate₀ (calls ++ [⟨memory, strm', ustate, flush, r⟩]) r.strm r.state

section Histories

variable {build : Build} {start strm₀ strm : ZStream} {calls : List DeflateCall}
  {ustate₀ ustate : UzlibComp}

theorem DeflateRun.deflateCalls (hrun : DeflateRun build start calls strm ustate) :
    ∃ heap, DeflateCalls build (deflateInit start heap).1 (deflateInit start heap).2 calls strm
      ustate := by
  induction hrun with
  | init heap => exact ⟨heap, .nil⟩
  | call _ hstrm hr ih =>
    obtain ⟨heap, hcalls⟩ := ih
    exact ⟨heap, hcalls.call hstrm hr⟩

/-- What is delivered and what is pending are blocks for what is consumed. -/
structure Flushing (first : Bool) (calls : List DeflateCall) (strm : ZStream) (ustate : UzlibComp)
    (pending : List UInt8) : Prop where
  delivering : Delivering ustate strm.totalOut pending
  flushed : Flushed first (delivered calls ++ pending) (consumedBytes calls) ustate.compDisabled

/-- Calls that do not finish, from a state where nothing is pending. -/
theorem DeflateCalls.flushed (hcalls : DeflateCalls build strm₀ ustate₀ calls strm ustate)
    (hidle : Idle ustate₀) (hflush : ∀ call ∈ calls, call.flush ≠ .finish) :
    ∃ pending, Flushing ustate₀.compDisabled calls strm ustate pending := by
  induction hcalls with
  | nil => exact ⟨[], hidle.delivering _, .nothing rfl rfl rfl⟩
  | @call calls strm strm' ustate memory flush r _ hstrm hr ih =>
    obtain ⟨pending, hdelivering, hflushed⟩ := ih fun call hcall ↦
      hflush call (List.mem_append_left _ hcall)
    have hnot : flush ≠ .finish := hflush _ (List.mem_append_right _ (List.mem_singleton.mpr rfl))
    rw [← hstrm.totalOut] at hdelivering
    obtain ⟨r', hr', hstep⟩ := deflate_cases build memory flush hdelivering
    cases hr'.symm.trans hr
    cases hstep.flows hdelivering with
    | moves pending' hstored hconsumed _ _ hsame hnext =>
      refine ⟨pending', hnext, ?_⟩
      rw [delivered_append, consumedBytes_append, hconsumed, List.append_nil, List.append_assoc,
        hstored, hsame]
      exact hflushed
    | chunk pending' _ hchunk hconsumed hstored _ _ _ hdisabled hnext =>
      refine ⟨pending', hnext, ?_⟩
      rw [delivered_append, consumedBytes_append, hconsumed, List.append_assoc, hstored, hdisabled,
        decide_eq_false hnot, ← List.append_assoc]
      exact hflushed.chunk hnot hchunk
    | refused hfinish _ _ => exact absurd hfinish hnot

/-- All that was flushed: what the calls that do not finish have consumed. -/
def flushedBytes (calls : List DeflateCall) : List UInt8 :=
  calls.flatMap fun call ↦ if call.flush = .finish then [] else call.consumed

theorem flushedBytes_append (calls : List DeflateCall) (call : DeflateCall) :
    flushedBytes (calls ++ [call]) =
      flushedBytes calls ++ if call.flush = .finish then [] else call.consumed := by
  rw [flushedBytes, List.flatMap_append, List.flatMap_singleton]
  rfl

/-- The running checksum is that of all that was flushed, whatever the windows are. -/
theorem DeflateRun.adler_flushed (hrun : DeflateRun build start calls strm ustate) :
    strm.adler = adler32 (flushedBytes calls) := by
  induction hrun with
  | init heap => rfl
  | @call calls strm strm' ustate memory flush r hearlier hstrm hr ih =>
    obtain ⟨pending, hdelivering, hstep⟩ := (hearlier.call hstrm hr).steps
      ⟨memory, strm', ustate, flush, r⟩ (List.mem_append_right _ (List.mem_singleton.mpr rfl))
    rw [← hstrm.adler] at ih
    rw [flushedBytes_append]
    have hflows := hstep.flows hdelivering
    simp only at hflows ⊢
    cases hflows with
    | moves _ _ hconsumed _ hadler _ _ =>
      rw [hconsumed, ite_self, List.append_nil, hadler, ih]
    | chunk _ hadlerV _ hconsumed _ _ _ hadler _ _ =>
      rw [hconsumed, hadler, hadlerV, ih, muzicAdler32_adler32]
      by_cases hfinish : flush = .finish
      · rw [if_pos hfinish, if_pos hfinish, List.append_nil]
      · rw [if_neg hfinish, if_neg hfinish]
    | refused hfinish _ hadler => rw [if_pos hfinish, List.append_nil, hadler, ih]

/-- The history in front of a call. -/
theorem DeflateRun.in_front (hrun : DeflateRun build start calls strm ustate)
    {earlier : List DeflateCall} {call : DeflateCall} :
    earlier ++ [call] <+: calls → ∃ strm', DeflateRun build start earlier strm' call.state ∧
      Hands strm' call.strm := by
  induction hrun with
  | init heap => exact fun hfront ↦ absurd (List.prefix_nil.mp hfront) (by simp)
  | call hearlier hstrm _ ih =>
    intro hfront
    rcases List.prefix_concat_iff.mp hfront with hall | hfront
    · obtain ⟨rfl, hlast⟩ := List.append_inj' hall rfl
      obtain rfl := List.singleton_inj.mp hlast
      exact ⟨_, hearlier, hstrm⟩
    · exact ih hfront

/-- What a finishing call makes of its chunk, as a stream: it is well formed exactly if the checksum is
that of the chunk. -/
theorem decodeZlib_chunk {first : Bool} {adlerV : ℕ} {input bytes : List UInt8}
    (h : ChunkBytes .finish first adlerV input bytes) (hlt : adlerV < 2 ^ 32) :
    decodeZlib bytes = some input ↔ adlerV = adler32 input := by
  obtain ⟨body, rfl, hstream⟩ := decodeBlocks_chunk h
  obtain ⟨bits, hblocks, htrailer⟩ := hstream []
  rw [List.append_nil] at hblocks
  have hdecode : decodeZlib (0x78 :: 0x01 :: body) =
      if bigEndian adlerV = bigEndian (adler32 input) then some input else none := by
    have hheader : (0x78 : UInt8) = 0x78 ∧ (0x01 : UInt8).toNat / 2 ^ 5 % 2 = 0 := by decide
    have hnil : bytesBits [] = [] := rfl
    simp only [decodeZlib, hheader, and_self, guard, if_true, decodeBody, hblocks, htrailer, bind,
      pure, Option.bind, closingBytes_finish, hnil, and_true]
    by_cases hsame : bigEndian adlerV = bigEndian (adler32 input)
    · rw [if_pos hsame, if_pos hsame]
    · rw [if_neg hsame, if_neg hsame]
      rfl
  rw [hdecode]
  constructor
  · intro hsome
    by_cases hsame : bigEndian adlerV = bigEndian (adler32 input)
    · exact bigEndian_inj hlt (adler32_lt input) hsame
    · rw [if_neg hsame] at hsome
      cases hsome
  · rintro rfl
    rw [if_pos rfl]

/-- What a call that finishes stores behind the output that was kept, in every history and with any
windows: the chunk of the bytes it was offered, with the checksum of all that was flushed before and of
them. -/
theorem DeflateRun.finished_chunk (hrun : DeflateRun build start calls strm ustate)
    {earlier : List DeflateCall} {call : DeflateCall} (hcall : earlier ++ [call] <+: calls)
    (hcode : call.result.code = .streamEnd) :
    ∃ first, ChunkBytes .finish first (adler32 (flushedBytes earlier ++ call.offered)) call.offered
      (call.result.stored.drop call.state.kept) := by
  obtain ⟨strm₁, hearlier, hhands⟩ := hrun.in_front hcall
  have hadler := hearlier.adler_flushed
  rw [← hhands.adler] at hadler
  obtain ⟨pending, hdelivering, hstep⟩ := hrun.steps call
    (hcall.subset (List.mem_append_right _ (List.mem_singleton.mpr rfl)))
  have hkept : call.state.kept = pending.length :=
    waiting_eq call.memory call.flush call.result hdelivering
  have hflows := hstep.flows hdelivering
  cases hflows with
  | moves _ _ _ hok _ _ _ => cases hok.symm.trans hcode
  | chunk pending' hadlerV hchunk _ hstored hlast hcode' _ _ _ =>
    have hfinish : call.flush = .finish := by
      by_contra hnot
      rw [if_neg hnot] at hcode'
      cases hcode'.symm.trans hcode
    rw [hlast hfinish, List.append_nil] at hstored
    rw [hfinish, hadlerV, hadler, muzicAdler32_adler32] at hchunk
    rw [hstored, hkept, List.drop_left, DeflateCall.offered]
    exact ⟨_, hchunk⟩
  | refused _ herror _ => cases herror.symm.trans hcode

/-- In every history, with any windows, what a call that finishes stores behind the output that was kept
is a well-formed stream of the bytes it was offered, if and only if the bytes flushed before have the
checksum of no bytes. -/
theorem finished_wellFormed_iff (hrun : DeflateRun build start calls strm ustate)
    {earlier : List DeflateCall} {call : DeflateCall} (hcall : earlier ++ [call] <+: calls)
    (hcode : call.result.code = .streamEnd) :
    decodeZlib (call.result.stored.drop call.state.kept) = some call.offered ↔
      adler32 (flushedBytes earlier) = 1 := by
  obtain ⟨first, hchunk⟩ := hrun.finished_chunk hcall hcode
  rw [decodeZlib_chunk hchunk (adler32_lt _)]
  exact adler32_append_left _ _

end Histories

theorem finished_wellFormed_iff_letter : ∃ call : DeflateCall, call.offered = [97] ∧
    (decodeZlib (call.result.stored.drop call.state.kept) = some call.offered ↔
      adler32 (flushedBytes []) = 1) := by
  obtain ⟨r, strm, ustate, hrun, -, hcode⟩ := letter_run
  exact ⟨_, rfl, finished_wellFormed_iff hrun (List.prefix_refl _) hcode⟩

end ZephyrThrift.Muzic
