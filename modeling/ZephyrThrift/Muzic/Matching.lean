import ZephyrThrift.Muzic.MatcherCalls
import ZephyrThrift.Muzic.TokenWriter

/-!
# What the matcher writes

Every call of the matcher appends the code words of the tokens it is split into (`appends_calls`), so
`uzlib_compress` writes tokens that stand for its source (`uzlibCompress_spec`).
-/

set_option autoImplicit false
set_option relaxedAutoImplicit false

namespace ZephyrThrift.Muzic

open Foundation

/-- What the matcher leaves alone. -/
structure KeptByMatcher (out out' : UzlibComp) : Prop where
  compDisabled : out'.compDisabled = out.compDisabled
  hashBits : out'.hashBits = out.hashBits
  dictSize : out'.dictSize = out.dictSize

theorem KeptByMatcher.trans {first second third : UzlibComp} (h : KeptByMatcher first second)
    (h' : KeptByMatcher second third) : KeptByMatcher first third :=
  ⟨h'.compDisabled.trans h.compDisabled, h'.hashBits.trans h.hashBits,
    h'.dictSize.trans h.dictSize⟩

theorem Emitted.searching {out : UzlibComp} {bits : List Bool} (h : Emitted out bits)
    (data : UzlibComp) : Emitted (out.searching data) bits := by
  obtain ⟨bytes, pending, hwritten, hpending, hbits⟩ := h
  exact ⟨bytes, pending, ⟨hwritten.buffer, hwritten.outlen, hwritten.noutbits, hwritten.outbits⟩,
    hpending, hbits⟩

/-- The calls that the writer takes: matches of any length from 3 on. -/
def Encodable : Token → Prop
  | .literal _ => True
  | .copy offset len => 1 ≤ offset ∧ offset ≤ 32768 ∧ 3 ≤ len

theorem encodable_of_valid {calls : List Token} :
    ∀ {history : List UInt8}, ValidTokens 32768 history calls → ∀ call ∈ calls, Encodable call := by
  induction calls with
  | nil => exact fun _ _ hcall ↦ absurd hcall List.not_mem_nil
  | cons call calls ih =>
    rintro history ⟨hvalid, hvalids⟩ other hother
    rcases List.mem_cons.mp hother with rfl | hother
    · cases other with
      | literal val => trivial
      | copy offset len => exact ⟨hvalid.2.2.1, hvalid.2.2.2.2, hvalid.1⟩
    · exact ih hvalids other hother

/-- Calls one after the other append the code words of the tokens they are split into. -/
theorem appends_calls (build : Build) (calls : List Token) (hcalls : ∀ call ∈ calls, Encodable call) :
    ∃ tokens bits, Splits calls tokens ∧
      TokensBits fixedLiteralLengths fixedDistanceLengths tokens bits ∧
      Appends (fun out ↦ calls.foldlM (callToken build) out) bits := by
  induction calls with
  | nil => exact ⟨[], [], .nil, TokensBits.nil, appends_ok⟩
  | cons call calls ih =>
    obtain ⟨tokens, bits, hsplits, htokens, happends⟩ :=
      ih fun other hother ↦ hcalls other (List.mem_cons_of_mem _ hother)
    simp only [List.foldlM_cons]
    cases call with
    | literal val =>
      obtain ⟨bits', htoken, happends'⟩ := appends_zlibLiteral build val
      exact ⟨.literal val :: tokens, bits' ++ bits, .literal hsplits, .cons htoken htokens,
        happends'.bind happends⟩
    | copy offset len =>
      obtain ⟨hpos, hwindow, hmin⟩ := hcalls _ List.mem_cons_self
      obtain ⟨lengths, bits', hsum, hlengths, htokens', happends'⟩ :=
        appends_zlibMatch build hpos hwindow hmin
      exact ⟨lengths.map (Token.copy offset) ++ tokens, bits' ++ bits, .copy hsum hlengths hsplits,
        htokens'.append htokens, happends'.bind happends⟩

/-- The matcher writes tokens that stand for the source. -/
theorem uzlibCompress_spec (build : Build) {source : List UInt8} {data : UzlibComp}
    {before : List Bool} (henabled : data.compDisabled = false) (hdict : data.dictSize = 32768)
    (hemitted : Emitted data before) :
    ∃ data' tokens bits, uzlibCompress build data source = .ok data' ∧ KeptByMatcher data data' ∧
      TokensBits fixedLiteralLengths fixedDistanceLengths tokens bits ∧
      Emitted data' (before ++ bits) ∧ ValidTokens 32768 [] tokens ∧ expand [] tokens = source := by
  obtain ⟨calls, data₁, hcalls, hvalid, hexpand⟩ := @uzlibCalls_spec source data hdict
  obtain ⟨tokens, bits, hsplits, htokens, happends⟩ := appends_calls build calls (encodable_of_valid hvalid)
  obtain ⟨out, hout, hemitted', hkept⟩ := happends data before henabled hemitted
  have hsearch := uzlibCalls_kept hcalls
  refine ⟨out.searching data₁, tokens, bits, ?_, ⟨hkept.compDisabled, hsearch.1, hsearch.2⟩, htokens,
    hemitted'.searching data₁, hsplits.valid hvalid, (hsplits.expand_eq []).trans hexpand⟩
  rw [uzlibCompress_eq build hcalls]
  dsimp only at hout
  rw [hout]
  rfl

end ZephyrThrift.Muzic
