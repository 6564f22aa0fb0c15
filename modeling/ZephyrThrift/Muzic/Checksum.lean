import ZephyrThrift.Foundation.Adler
import ZephyrThrift.Muzic.Counters

/-!
# The checksum of a finished stream

`muzic_adler32` computes the Adler-32 sums: in a block of 5552 bytes neither sum wraps
(`muzicAdler32_eq`). The running checksum of the stream record takes in every chunk that does not
finish and is never reset, so a finishing call stores the checksum of its own data exactly when the
chunks flushed before the previous finishing call have the checksum of no bytes (`ownChecksum_iff`).
-/

set_option autoImplicit false
set_option relaxedAutoImplicit false

namespace ZephyrThrift.Muzic

open Foundation

/-! ### The sums -/

/-- The sums of the code are exact as long as they fit. -/
theorem foldl_adlerByte (bytes : List UInt8) : ∀ s1 s2,
    (plainSums (s1, s2) bytes).1 < 2 ^ 32 → (plainSums (s1, s2) bytes).2 < 2 ^ 32 →
      bytes.foldl adlerByte (s1, s2) = plainSums (s1, s2) bytes := by
  induction bytes with
  | nil => intro s1 s2 _ _; rfl
  | cons byte bytes ih =>
    intro s1 s2 h1 h2
    rw [plainSums_cons] at h1 h2 ⊢
    obtain ⟨hle1, hle2⟩ := le_plainSums bytes (s1 + byte.toNat) (s2 + (s1 + byte.toNat))
    have hstep : adlerByte (s1, s2) byte = (s1 + byte.toNat, s2 + (s1 + byte.toNat)) := by
      simp only [adlerByte, Nat.mod_eq_of_lt (hle1.trans_lt h1), Nat.mod_eq_of_lt (hle2.trans_lt h2)]
    rw [List.foldl_cons, hstep]
    exact ih _ _ h1 h2

theorem adlerSixteens_eq (turns : ℕ) : ∀ (buf : List UInt8) (sums : ℕ × ℕ),
    adlerSixteens turns buf sums = (buf.take (16 * turns)).foldl adlerByte sums := by
  induction turns with
  | zero => intro buf sums; rfl
  | succ turns ih =>
    intro buf sums
    rw [adlerSixteens, ih, ← List.foldl_append, show 16 * (turns + 1) = 16 + 16 * turns by ring,
      List.take_add]

/-- In a block of at most 5552 bytes the sums fit into 32 bits. -/
theorem plainSums_lt {block : List UInt8} (hblock : block.length ≤ a32Nmax) {s1 s2 : ℕ}
    (h1 : s1 < 2 ^ 16) (h2 : s2 < 2 ^ 16) :
    (plainSums (s1, s2) block).1 < 2 ^ 32 ∧ (plainSums (s1, s2) block).2 < 2 ^ 32 := by
  obtain ⟨hle1, hle2⟩ := plainSums_le block
  rw [a32Nmax] at hblock
  have hmul : block.length * s1 ≤ 5552 * 65535 := Nat.mul_le_mul hblock (by omega)
  have hsquare : block.length * (block.length + 1) ≤ 5552 * 5553 :=
    Nat.mul_le_mul hblock (by omega)
  rw [plainSums_eq]
  exact ⟨by simp only; omega, by simp only; omega⟩

/-- In a block of at most 5552 bytes no sum wraps. -/
theorem foldl_adlerByte_block {block : List UInt8} (hblock : block.length ≤ a32Nmax) {s1 s2 : ℕ}
    (h1 : s1 < 2 ^ 16) (h2 : s2 < 2 ^ 16) :
    block.foldl adlerByte (s1, s2) = plainSums (s1, s2) block :=
  foldl_adlerByte block s1 s2 (plainSums_lt hblock h1 h2).1 (plainSums_lt hblock h1 h2).2

/-- One turn of the loop over the blocks. -/
theorem adlerBlocks_succ (fuel : ℕ) {buf : List UInt8} (hbuf : buf ≠ []) {s1 s2 : ℕ}
    (h1 : s1 < 2 ^ 16) (h2 : s2 < 2 ^ 16) :
    adlerBlocks (fuel + 1) buf (s1, s2) =
      adlerBlocks fuel (buf.drop (min buf.length a32Nmax))
        (adlerSums (s1 % adlerBase, s2 % adlerBase) (buf.take (min buf.length a32Nmax))) := by
  have hlength : (buf.take (min buf.length a32Nmax)).length ≤ a32Nmax := by
    rw [List.length_take]
    omega
  rw [adlerBlocks, if_pos (List.length_pos_iff.mpr hbuf)]
  simp only [adlerSixteens_eq]
  rw [← List.foldl_append, ← List.take_add, Nat.div_add_mod, foldl_adlerByte_block hlength h1 h2,
    adlerSums_eq]
  rfl

theorem adlerBlocks_eq (fuel : ℕ) : ∀ (buf : List UInt8) {s1 s2 : ℕ}, s1 < adlerBase →
    s2 < adlerBase → buf.length < fuel → adlerBlocks fuel buf (s1, s2) = adlerSums (s1, s2) buf := by
  induction fuel with
  | zero => intro buf s1 s2 _ _ hfuel; exact absurd hfuel (Nat.not_lt_zero _)
  | succ fuel ih =>
    intro buf s1 s2 h1 h2 hfuel
    by_cases hbuf : buf = []
    · subst hbuf
      rfl
    · have hpos := List.length_pos_iff.mpr hbuf
      have hbase : adlerBase < 2 ^ 16 := by decide
      rw [adlerBlocks_succ fuel hbuf (h1.trans hbase) (h2.trans hbase), Nat.mod_eq_of_lt h1,
        Nat.mod_eq_of_lt h2]
      obtain ⟨h1', h2'⟩ := adlerSums_lt h1 h2 (buf.take (min buf.length a32Nmax))
      rw [ih _ h1' h2' (by rw [List.length_drop, a32Nmax]; omega), ← adlerSums_append,
        List.take_append_drop]

/-- The checksum of the code, continued from the sums in `prevSum`. -/
theorem muzicAdler32_eq (data : List UInt8) {s1 s2 : ℕ} (h1 : s1 < adlerBase) (h2 : s2 < adlerBase) :
    muzicAdler32 data (s2 * 2 ^ 16 + s1) =
      (adlerSums (s1, s2) data).2 * 2 ^ 16 + (adlerSums (s1, s2) data).1 := by
  obtain ⟨h1', h2'⟩ := adlerSums_lt h1 h2 data
  have hlow : (s2 * 2 ^ 16 + s1) &&& 0xffff = s1 := by
    rw [show 0xffff = 2 ^ 16 - 1 by norm_num, Nat.and_two_pow_sub_one_eq_mod]
    simp only [adlerBase] at h1
    omega
  have hhigh : (s2 * 2 ^ 16 + s1) >>> 16 = s2 := by
    rw [Nat.shiftRight_eq_div_pow]
    simp only [adlerBase] at h1
    omega
  rw [muzicAdler32, hlow, hhigh, adlerBlocks_eq _ data h1 h2 (Nat.lt_succ_self _)]
  simp only [adlerBase] at h1' h2'
  rw [Nat.mod_eq_of_lt (by rw [Nat.shiftLeft_eq]; omega),
    ← Nat.shiftLeft_add_eq_or_of_lt (by omega), Nat.shiftLeft_eq]

/-- The checksum of more bytes, continued from a checksum. -/
theorem muzicAdler32_adler32 (front data : List UInt8) :
    muzicAdler32 data (adler32 front) = adler32 (front ++ data) := by
  obtain ⟨h1, h2⟩ := adlerSums_lt (show 1 < adlerBase by decide) (show 0 < adlerBase by decide) front
  rw [adler32_eq front, adler32_eq (front ++ data), adlerSums_append]
  exact muzicAdler32_eq data h1 h2

/-- The checksum of the code is exact: its sums are those of unbounded numbers, whatever the number
of bytes. In no block does an addition wrap, and the checksum of a part can be continued. -/
theorem muzicAdler32_exact {prevSum p1 p2 : ℕ} (hlow : prevSum &&& 0xffff = p1)
    (hhigh : prevSum >>> 16 = p2) (h1 : p1 < 65521) (h2 : p2 < 65521) (data : List UInt8) :
    muzicAdler32 data prevSum =
        (p2 + ((List.range data.length).map fun i ↦
          p1 + ((data.take (i + 1)).map UInt8.toNat).sum).sum) % 65521 * 65536 +
        (p1 + (data.map UInt8.toNat).sum) % 65521 ∧
      (∀ block : List UInt8, block.length ≤ 5552 → ∀ s1 < 65521, ∀ s2 < 65521,
        block.foldl adlerByte (s1, s2) = plainSums (s1, s2) block ∧
          (plainSums (s1, s2) block).1 < 2 ^ 32 ∧ (plainSums (s1, s2) block).2 < 2 ^ 32) ∧
      ∀ a b, data = a ++ b → muzicAdler32 data prevSum = muzicAdler32 b (muzicAdler32 a prevSum) := by
  have hprev : prevSum = p2 * 2 ^ 16 + p1 := by
    rw [show 0xffff = 2 ^ 16 - 1 by norm_num, Nat.and_two_pow_sub_one_eq_mod] at hlow
    rw [Nat.shiftRight_eq_div_pow] at hhigh
    omega
  rw [hprev]
  refine ⟨?_, fun block hblock s1 hs1 s2 hs2 ↦ ?_, fun a b hdata ↦ ?_⟩
  · have hsums := adlerSums_eq data p1 p2
    rw [Nat.mod_eq_of_lt (show p1 < adlerBase from h1),
      Nat.mod_eq_of_lt (show p2 < adlerBase from h2), plainSums_closed] at hsums
    rw [muzicAdler32_eq data h1 h2, hsums]
    rfl
  · have hs1' : s1 < 2 ^ 16 := hs1.trans (by norm_num)
    have hs2' : s2 < 2 ^ 16 := hs2.trans (by norm_num)
    exact ⟨foldl_adlerByte_block hblock hs1' hs2', plainSums_lt hblock hs1' hs2'⟩
  · obtain ⟨h1', h2'⟩ := adlerSums_lt h1 h2 a
    rw [hdata, muzicAdler32_eq _ h1 h2, muzicAdler32_eq a h1 h2, muzicAdler32_eq b h1' h2',
      adlerSums_append]

/-- The checksum of three letters, continued behind a checksum. -/
theorem muzicAdler32_exact_letters :
    muzicAdler32 [97, 98, 99] 0x00620062 = 0x03D20188 ∧
      muzicAdler32 [97, 98, 99] 0x00620062 = muzicAdler32 [99] (muzicAdler32 [97, 98] 0x00620062) := by
  have hexact := muzicAdler32_exact (show 0x00620062 &&& 0xffff = 98 by decide)
    (show 0x00620062 >>> 16 = 98 by decide) (by norm_num) (by norm_num) [97, 98, 99]
  exact ⟨hexact.1.trans (by decide), hexact.2.2 [97, 98] [99] rfl⟩

theorem closingBytes_finish {adlerV : ℕ} :
    closingBytes .finish adlerV = bigEndian adlerV := by
  have hbyte : ∀ shift, byteAt adlerV shift = UInt8.ofNat (adlerV / 2 ^ shift) := by
    intro shift
    rw [byteAt, Nat.shiftRight_eq_div_pow, show 0xFF = 2 ^ 8 - 1 by norm_num,
      Nat.and_two_pow_sub_one_eq_mod]
    exact UInt8.toNat_inj.mp (by rw [UInt8.toNat_ofNat', UInt8.toNat_ofNat', Nat.mod_mod])
  rw [closingBytes, if_pos rfl, bigEndian, hbyte, hbyte, hbyte, hbyte, pow_zero, Nat.div_one]

/-! ### Histories -/

/-- The bytes given to chunks that do not finish: before the last finishing call, and since then. -/
def flushedParts (calls : List DeflateCall) : List UInt8 × List UInt8 :=
  calls.foldl (fun parts call ↦
    if call.flush = .finish then (parts.1 ++ parts.2, []) else (parts.1, parts.2 ++ call.consumed))
      ([], [])

theorem flushedParts_append (calls : List DeflateCall) (call : DeflateCall) :
    flushedParts (calls ++ [call]) =
      if call.flush = .finish then ((flushedParts calls).1 ++ (flushedParts calls).2, [])
      else ((flushedParts calls).1, (flushedParts calls).2 ++ call.consumed) := by
  rw [flushedParts, List.foldl_append]
  rfl

/-- A finishing call stores the checksum of the bytes since the finishing call before it at the end
of its output. -/
def OwnChecksum (earlier : List DeflateCall) (call : DeflateCall) : Prop :=
  bigEndian (adler32 ((flushedParts earlier).2 ++ call.consumed)) <:+ call.result.stored

theorem consumed_of_read {memory : Memory} {strm : ZStream} {ustate : UzlibComp} {flush : Flush}
    {r : DeflateResult} (hread : r.strm.availIn = 0) :
    (DeflateCall.mk memory strm ustate flush r).consumed = memory.bytes strm.nextIn strm.availIn := by
  by_cases hempty : strm.availIn = 0
  · rw [DeflateCall.consumed, if_pos (hread.trans hempty.symm), hempty]
    rfl
  · rw [DeflateCall.consumed, if_neg (by rw [hread]; exact Ne.symm hempty)]

/-- What a call with ample output does to the checksum, when no output is pending. -/
theorem ample_call {build : Build} {memory : Memory} {strm : ZStream} {ustate : UzlibComp}
    {flush : Flush} {r : DeflateResult} (hidle : Idle ustate)
    (hr : deflate build memory strm ustate flush = .ok r) (hample : r.state.outbuf = none)
    {front : List UInt8} (hadler : strm.adler = adler32 front) :
    Idle r.state ∧ r.strm.adler = adler32 (front ++
        if flush = .finish then [] else (DeflateCall.mk memory strm ustate flush r).consumed) ∧
      (flush = .finish → bigEndian (adler32 (front ++
        (DeflateCall.mk memory strm ustate flush r).consumed)) <:+ r.stored) := by
  obtain ⟨r', hr', hstep⟩ := deflate_cases build memory flush (hidle.delivering strm.totalOut)
  rw [hr'] at hr
  injection hr with hr
  subst hr
  cases hstep with
  | stays _ _ hroom => exact absurd hroom (Nat.not_lt_zero _)
  | drains hpending _ _ => exact absurd rfl hpending
  | continues hpending _ _ _ => exact absurd rfl hpending
  | fresh _ hchunk =>
    cases hchunk with
    | nothing _ hflush =>
      refine ⟨hidle, ?_, fun hfinish ↦ absurd hfinish hflush⟩
      rw [if_neg hflush, DeflateCall.consumed, if_pos rfl, List.append_nil]
      exact hadler
    | @delivers encoded bytes adlerV hadlerV hencoded _ _ =>
      rw [consumed_of_read rfl]
      rw [hadler, muzicAdler32_adler32] at hadlerV
      refine ⟨⟨rfl, hencoded.kept.dictSize.trans hidle.dictSize⟩, ?_, fun hfinish ↦ ?_⟩
      · by_cases hfinish : flush = .finish
        · simp only [ZStream.chunkRead, hfinish, ne_eq, not_true_eq_false, if_false, if_true,
            List.append_nil, hadler]
        · simp only [ZStream.chunkRead, hfinish, ne_eq, not_false_eq_true, if_true, if_false, hadlerV]
      · subst hfinish
        obtain ⟨_, _, body, _, _, _, hbytes, _⟩ := hencoded.chunk
        rw [closingBytes_finish, hadlerV] at hbytes
        exact ⟨_, hbytes.symm⟩
    | spills _ _ _ _ _ => cases hample
    | refuses _ _ _ _ => cases hample

/-- The running checksum takes in every chunk that does not finish. -/
theorem DeflateRun.adler {build : Build} {start strm : ZStream} {calls : List DeflateCall}
    {ustate : UzlibComp} (hrun : DeflateRun build start calls strm ustate)
    (hample : ∀ call ∈ calls, call.result.state.outbuf = none) :
    Idle ustate ∧ strm.adler = adler32 ((flushedParts calls).1 ++ (flushedParts calls).2) ∧
      ∀ earlier call, earlier ++ [call] <+: calls → call.flush = .finish →
        bigEndian (adler32 ((flushedParts earlier).1 ++
          ((flushedParts earlier).2 ++ call.consumed))) <:+ call.result.stored := by
  induction hrun with
  | init heap =>
    refine ⟨⟨rfl, rfl⟩, rfl, fun earlier call hfront ↦ ?_⟩
    exact absurd (List.prefix_nil.mp hfront) (by simp)
  | @call calls strm strm' ustate memory flush r _ hstrm hr ih =>
    obtain ⟨hidle, hadler, hfinished⟩ := ih fun call hcall ↦
      hample call (List.mem_append_left _ hcall)
    rw [← hstrm.adler] at hadler
    obtain ⟨hidle', hadler', hstored⟩ := ample_call hidle hr
      (hample _ (List.mem_append_right _ (List.mem_singleton.mpr rfl))) hadler
    refine ⟨hidle', ?_, fun earlier call hfront hfinish ↦ ?_⟩
    · rw [hadler', flushedParts_append]
      by_cases hfinish : flush = .finish
      · simp only [hfinish, if_true, List.append_nil]
      · simp only [hfinish, if_false, List.append_assoc]
    · rcases List.prefix_concat_iff.mp hfront with hall | hearlier
      · obtain ⟨rfl, hlast⟩ := List.append_inj' hall rfl
        obtain rfl := List.singleton_inj.mp hlast
        have hstored' := hstored hfinish
        rwa [List.append_assoc] at hstored'
      · exact hfinished earlier call hearlier hfinish

/-- With ample output, a finishing call stores the checksum of its own data if and only if what was
flushed before the finishing call in front of it has the checksum of no bytes. -/
theorem ownChecksum_iff {build : Build} {start strm : ZStream} {calls : List DeflateCall}
    {ustate : UzlibComp} (hrun : DeflateRun build start calls strm ustate)
    (hample : ∀ call ∈ calls, call.result.state.outbuf = none) {earlier : List DeflateCall}
    {call : DeflateCall} (hcall : earlier ++ [call] <+: calls) (hfinish : call.flush = .finish) :
    OwnChecksum earlier call ↔ adler32 (flushedParts earlier).1 = 1 := by
  obtain ⟨-, -, hfinished⟩ := hrun.adler hample
  have hstored := hfinished earlier call hcall hfinish
  rw [← adler32_append_left _ ((flushedParts earlier).2 ++ call.consumed)]
  constructor
  · intro hown
    have hlength : ∀ value, (bigEndian value).length = 4 := fun value ↦ rfl
    have hsuffix := List.suffix_of_suffix_length_le hstored hown (by rw [hlength, hlength])
    exact bigEndian_inj (adler32_lt _) (adler32_lt _)
      (hsuffix.eq_of_length (by rw [hlength, hlength]))
  · intro hsame
    rwa [OwnChecksum, ← hsame]

/-- The letter `a` in a stream of its own. -/
theorem ownChecksum_letter : ∃ r, r.stored = [0x78, 0x01, 0x4B, 0x04, 0x00, 0x00, 0x62, 0x00, 0x62] ∧
    (OwnChecksum [] ⟨fun _ ↦ 97, { letterStrm with availOut := 10 }, letterState, .finish, r⟩ ↔
      adler32 (flushedParts []).1 = 1) := by
  have hvalues : (deflate ⟨false, none⟩ (fun _ ↦ 97) { letterStrm with availOut := 10 } letterState
      .finish).map (fun r ↦ (r.state.outbuf, r.stored)) =
        .ok (none, [0x78, 0x01, 0x4B, 0x04, 0x00, 0x00, 0x62, 0x00, 0x62]) := by decide +kernel
  obtain ⟨r, hr, hvalues⟩ := map_ok hvalues
  obtain ⟨hample, hstored⟩ := Prod.mk.inj hvalues
  have hhands : Hands (deflateInit letterStrm letterState).1 { letterStrm with availOut := 10 } :=
    ⟨rfl, rfl, rfl⟩
  have hrun : DeflateRun ⟨false, none⟩ letterStrm
      [⟨fun _ ↦ 97, { letterStrm with availOut := 10 }, letterState, .finish, r⟩] r.strm r.state :=
    .call (.init letterState) hhands hr
  exact ⟨r, hstored, ownChecksum_iff hrun (by simpa using hample) (List.prefix_refl _) rfl⟩

/-- The letter `a` flushed, and then two letters `a`, each in a finishing call: the checksum behind
the last one is that of two letters. -/
theorem not_ownChecksum_third : ∃ calls earlier call strm ustate,
    DeflateRun ⟨false, none⟩ letterStrm calls strm ustate ∧
      (∀ call ∈ calls, call.result.state.outbuf = none) ∧ earlier ++ [call] <+: calls ∧
      call.flush = .finish ∧ ¬ OwnChecksum earlier call := by
  have hall : (deflate ⟨false, none⟩ (fun _ ↦ 97) { letterStrm with availOut := 10 } letterState
      .syncFlush >>= fun first ↦ deflate ⟨false, none⟩ (fun _ ↦ 97)
        { first.strm with availIn := 1, availOut := 10 } first.state .finish >>= fun second ↦
          (deflate ⟨false, none⟩ (fun _ ↦ 97) { second.strm with availIn := 1, availOut := 10 }
            second.state .finish).map fun third ↦ (first.state.outbuf, second.state.outbuf,
              third.state.outbuf, third.strm.availIn, third.stored)) =
      .ok (none, none, none, 0, [0x78, 0x01, 0x4B, 0x04, 0x00, 0x01, 0x25, 0x00, 0xC3]) := by
    decide +kernel
  obtain ⟨first, hfirst, hrest⟩ := bind_ok hall
  obtain ⟨second, hsecond, hrest⟩ := bind_ok hrest
  obtain ⟨third, hthird, hvalues⟩ := map_ok hrest
  simp only [Prod.mk.injEq] at hvalues
  obtain ⟨hout₁, hout₂, hout₃, hread, hstored⟩ := hvalues
  have hhands₁ : Hands letterStrm { letterStrm with availOut := 10 } := ⟨rfl, rfl, rfl⟩
  have hrun₁ : DeflateRun ⟨false, none⟩ letterStrm
      [⟨fun _ ↦ 97, { letterStrm with availOut := 10 }, letterState, .syncFlush, first⟩] first.strm
      first.state := .call (.init letterState) hhands₁ hfirst
  have hhands₂ : Hands first.strm { first.strm with availIn := 1, availOut := 10 } :=
    ⟨rfl, rfl, rfl⟩
  have hhands₃ : Hands second.strm { second.strm with availIn := 1, availOut := 10 } :=
    ⟨rfl, rfl, rfl⟩
  refine ⟨_, _, _, _, _, (hrun₁.call hhands₂ hsecond).call hhands₃ hthird,
    by simp [hout₁, hout₂, hout₃], List.prefix_refl _, rfl, fun hown ↦ ?_⟩
  rw [OwnChecksum, consumed_of_read hread, flushedParts_append, if_pos rfl, hstored] at hown
  have hletter : bigEndian (adler32 [97]) <:+
    [0x78, 0x01, 0x4B, 0x04, 0x00, 0x01, 0x25, 0x00, 0xC3] := hown
  exact absurd hletter (by decide)

end ZephyrThrift.Muzic
