import ZephyrThrift.Foundation.EventRuns
import ZephyrThrift.Server.FdServer

/-!
# Reading and writing on a descriptor

`xport::read_virt` and `xport::write_virt`, with the outcomes of the system calls given. A failed
`::read` is logged but not thrown, and its result of -1 comes back as a count; a `::write` of 2^31
bytes or more moves the pointer back. Everything else is as it should be (`faithful_iff`).
-/

set_option autoImplicit false
set_option relaxedAutoImplicit false

namespace ZephyrThrift.Server

open Foundation

/-- What the two functions throw; the error number of a `std::system_error` is left out. -/
inductive XportException
  | systemError (what : String)
  | transport (ttx : TransportException)
  deriving DecidableEq, Repr

/-- The bits of `revents` that are looked at. -/
structure Revents where
  pollin : Bool
  pollnval : Bool
  deriving DecidableEq, Repr

/-- The conversion of a result of `::read` or `::write` to `int`. -/
def toInt (count : ℕ) : ℤ :=
  if count % 2 ^ 32 < 2 ^ 31 then count % 2 ^ 32 else count % 2 ^ 32 - 2 ^ 32

/-- The conversion of an `int` to `uint32_t`. -/
def toUInt32 (r : ℤ) : ℕ := (r % 2 ^ 32).toNat

/-- `xport::read_virt`: the count, and what is stored in the buffer. `poll` is `none` where `poll`
fails, and `read` where `::read` does. -/
def Xport.readVirt (x : Xport) (poll : Option (Revents × Revents)) (read : Option (List UInt8)) :
    Except XportException (ℕ × List UInt8) :=
  if ¬ x.isOpen then .ok (0, [])
  else match poll with
    | none => .error (.systemError "poll")
    | some (onFd, onEfd) =>
      if onFd.pollnval || onEfd.pollnval then .ok (0, [])
      else if onFd.pollin then
        match read with
        -- the exception is constructed, but not thrown
        | none => .ok (toUInt32 (-1), [])
        | some bytes => .ok (toUInt32 (toInt bytes.length), bytes)
      else .ok (0, [])

/-- The loop of `xport::write_virt`: where `buf` points to, what is left of `len`, the places of the
buffer that were passed to the descriptor, and the exception. -/
structure Writing where
  buf : ℤ
  len : ℕ
  passed : List ℤ
  threw : Option XportException
  deriving DecidableEq, Repr

/-- One turn of the loop, with a `::write` that fails or takes `n` of the bytes that are left. -/
def Writing.turn (w : Writing) (write : Option ℕ) : Option Writing :=
  if w.threw = none ∧ 0 < w.len then
    match write with
    | none => some { w with threw := some (.systemError "write") }
    | some n =>
      if 0 < n ∧ n ≤ w.len then
        let passed := w.passed ++ (List.range n).map fun i : ℕ ↦ w.buf + (i : ℤ)
        if toInt n = -1 then some { w with passed := passed, threw := some (.systemError "write") }
        else some ⟨w.buf + toInt n, toUInt32 (w.len - toInt n), passed, none⟩
      else none
  else none

/-- `xport::write_virt`; `none` when the outcomes are not those of a run that ends. -/
def Xport.writeVirt (x : Xport) (len : ℕ) (writes : List (Option ℕ)) : Option Writing :=
  if ¬ x.isOpen then
    if writes = [] then some ⟨0, len, [], some (.transport .endOfFile)⟩ else none
  else do
    let w ← writes.foldlM Writing.turn ⟨0, len, [], none⟩
    if w.threw ≠ none ∨ w.len = 0 then some w else none

/-! ### What is promised -/

/-- The call gets to `::read`. -/
def Xport.Reads (x : Xport) (poll : Option (Revents × Revents)) : Prop :=
  x.isOpen = true ∧ ∃ onFd onEfd, poll = some (onFd, onEfd) ∧ onFd.pollnval = false ∧
    onEfd.pollnval = false ∧ onFd.pollin = true

/-- `read_virt` throws, or returns the number of bytes that it stored, and throws where a system call
failed. -/
def ReportsRead (x : Xport) (len : ℕ) (poll : Option (Revents × Revents))
    (read : Option (List UInt8)) : Prop :=
  (∀ count stored, x.readVirt poll read = .ok (count, stored) → count ≤ len ∧ count = stored.length) ∧
    ((x.isOpen = true ∧ poll = none ∨ x.Reads poll ∧ read = none) →
      ∃ thrown, x.readVirt poll read = .error thrown)

/-- `write_virt` throws, or has passed every byte once and in order. -/
def PassesAll (len : ℕ) (w : Writing) : Prop :=
  w.threw ≠ none ∨ w.passed = (List.range len).map fun i : ℕ ↦ (i : ℤ)

/-! ### Reading -/

theorem toInt_of_lt {n : ℕ} (h : n < 2 ^ 31) : toInt n = n := by
  rw [toInt, if_pos (by omega)]
  omega

theorem toInt_of_le {n : ℕ} (h : 2 ^ 31 ≤ n) (hlt : n < 2 ^ 32) : toInt n = n - 2 ^ 32 := by
  rw [toInt, if_neg (by omega)]
  omega

theorem toUInt32_sub {len n : ℕ} (h : n ≤ len) (hlen : len < 2 ^ 32) :
    toUInt32 (len - toInt n) = len - n := by
  rcases Nat.lt_or_ge n (2 ^ 31) with hlow | hhigh
  · rw [toInt_of_lt hlow, toUInt32]
    omega
  · rw [toInt_of_le hhigh (by omega), toUInt32]
    omega

theorem toUInt32_toInt {n : ℕ} (h : n < 2 ^ 32) : toUInt32 (toInt n) = n := by
  rcases Nat.lt_or_ge n (2 ^ 31) with hlow | hhigh
  · rw [toInt_of_lt hlow, toUInt32]
    omega
  · rw [toInt_of_le hhigh h, toUInt32]
    omega

section Read

variable {x : Xport} {poll : Option (Revents × Revents)} {read : Option (List UInt8)}

theorem readVirt_reads (h : x.Reads poll) : x.readVirt poll read = match read with
    | none => .ok (toUInt32 (-1), [])
    | some bytes => .ok (toUInt32 (toInt bytes.length), bytes) := by
  obtain ⟨hopen, onFd, onEfd, rfl, hfd, hefd, hin⟩ := h
  simp [Xport.readVirt, hopen, hfd, hefd, hin]

theorem readVirt_not_reads (h : ¬ x.Reads poll) :
    x.readVirt poll read = .ok (0, []) ∨
      (x.isOpen = true ∧ poll = none ∧ x.readVirt poll read = .error (.systemError "poll")) := by
  unfold Xport.readVirt
  split
  · exact .inl rfl
  rename_i hopen
  rw [not_not] at hopen
  rcases poll with _ | ⟨onFd, onEfd⟩
  · exact .inr ⟨hopen, rfl, rfl⟩
  refine .inl ?_
  simp only
  split
  · rfl
  rename_i hvalid
  split
  · rename_i hin
    simp only [Bool.or_eq_true, not_or, Bool.not_eq_true] at hvalid
    exact absurd ⟨hopen, onFd, onEfd, rfl, hvalid.1, hvalid.2, hin⟩ h
  · rfl

/-- Only a failed `::read` is misreported. -/
theorem reportsRead_iff {len : ℕ} (hlen : len < 2 ^ 32)
    (hread : ∀ bytes, read = some bytes → bytes.length ≤ len) :
    ReportsRead x len poll read ↔ ¬ (x.Reads poll ∧ read = none) := by
  constructor
  · rintro ⟨-, hthrows⟩ hfails
    obtain ⟨thrown, h⟩ := hthrows (.inr hfails)
    rw [readVirt_reads hfails.1, hfails.2] at h
    cases h
  · intro hread'
    by_cases hreads : x.Reads poll
    · cases hbytes : read with
      | none => exact absurd ⟨hreads, hbytes⟩ hread'
      | some bytes =>
        refine ⟨fun count stored h ↦ ?_, fun h ↦ ?_⟩
        · have hle := hread bytes hbytes
          have hcount : toUInt32 (toInt bytes.length) = bytes.length := toUInt32_toInt (by omega)
          rw [readVirt_reads hreads] at h
          simp only [hcount] at h
          cases h
          exact ⟨hle, rfl⟩
        · obtain ⟨hopen, onFd, onEfd, rfl, -⟩ := hreads
          rcases h with ⟨-, h⟩ | ⟨-, h⟩ <;> cases h
    · refine ⟨fun count stored h ↦ ?_, fun h ↦ ?_⟩
      · rcases readVirt_not_reads hreads with hnone | ⟨-, -, hthrows⟩
        · rw [hnone] at h
          cases h
          exact ⟨Nat.zero_le _, rfl⟩
        · rw [hthrows] at h
          cases h
      · rcases h with ⟨hopen, rfl⟩ | ⟨h, -⟩
        · refine ⟨.systemError "poll", ?_⟩
          simp [Xport.readVirt, hopen]
        · exact absurd h hreads

end Read

/-! ### Writing -/

/-- Behind short writes: the pointer is where the next byte is, and the bytes in front of it were
passed in order. -/
structure InOrder (total : ℕ) (w : Writing) : Prop where
  threw : w.threw = none
  le : w.len ≤ total
  buf : w.buf = (total - w.len : ℕ)
  passed : w.passed = (List.range (total - w.len)).map fun i : ℕ ↦ (i : ℤ)

/-- Behind a write of 2^31 bytes or more that is not the last one: the pointer is in front of the
buffer, or bytes from there were passed. -/
structure InFront (w : Writing) : Prop where
  threw : w.threw = none
  front : (∃ place ∈ w.passed, place < 0) ∨ w.buf < 0 ∧ 0 < w.len

/-- What a turn without an exception does. -/
theorem turn_some {w w' : Writing} {write : Option ℕ} (h : w.turn write = some w')
    (hthrew : w'.threw = none) (hlen : w.len < 2 ^ 32) :
    ∃ n, write = some n ∧ 0 < n ∧ n ≤ w.len ∧
      w' = ⟨w.buf + toInt n, w.len - n, w.passed ++ (List.range n).map fun i : ℕ ↦ w.buf + (i : ℤ), none⟩ := by
  unfold Writing.turn at h
  split at h
  · cases write with
    | none => cases h; cases hthrew
    | some n =>
      simp only at h
      split at h
      · rename_i hn
        split at h
        · cases h; cases hthrew
        · cases h
          exact ⟨n, rfl, hn.1, hn.2, by rw [toUInt32_sub hn.2 hlen]⟩
      · cases h
  · cases h

/-- No turn follows an exception. -/
theorem turn_threw {w w' : Writing} {write : Option ℕ} (h : w.turn write = some w') :
    w.threw = none ∧ 0 < w.len := by
  unfold Writing.turn at h
  split at h
  · assumption
  · cases h

/-- The places that a write takes continue those in front of the pointer. -/
theorem range_append_map (k n : ℕ) :
    ((List.range k).map fun i : ℕ ↦ (i : ℤ)) ++ ((List.range n).map fun i : ℕ ↦ (k : ℤ) + (i : ℤ)) =
      (List.range (k + n)).map fun i : ℕ ↦ (i : ℤ) := by
  rw [List.range_add, List.map_append, List.map_map]
  simp only [Function.comp_def, Nat.cast_add]

section Write

variable {total : ℕ} {w w' : Writing}

theorem InOrder.passed_append (h : InOrder total w) {n : ℕ} (hn : n ≤ w.len) :
    w.passed ++ ((List.range n).map fun i : ℕ ↦ w.buf + (i : ℤ)) =
      (List.range (total - (w.len - n))).map fun i : ℕ ↦ (i : ℤ) := by
  have hle := h.le
  rw [h.passed, h.buf, range_append_map, show total - w.len + n = total - (w.len - n) by omega]

theorem InFront.turn {write : Option ℕ} (h : InFront w) (hlen : w.len < 2 ^ 32)
    (hturn : w.turn write = some w') (hthrew : w'.threw = none) : InFront w' := by
  obtain ⟨n, -, hpos, -, rfl⟩ := turn_some hturn hthrew hlen
  refine ⟨rfl, .inl ?_⟩
  rcases h.front with ⟨place, hplace, hnegative⟩ | ⟨hbuf, -⟩
  · exact ⟨place, List.mem_append_left _ hplace, hnegative⟩
  · refine ⟨w.buf, List.mem_append_right _ (List.mem_map.mpr ⟨0, List.mem_range.mpr hpos, ?_⟩), hbuf⟩
    exact Int.add_zero _

theorem InFront.run (writes : List (Option ℕ)) : ∀ {w w' : Writing}, InFront w → w.len < 2 ^ 32 →
    writes.foldlM Writing.turn w = some w' → w'.threw = none → InFront w' := by
  induction writes with
  | nil => intro w w' h _ hrun _; cases hrun; exact h
  | cons write writes ih =>
    intro w w' h hlen hrun hthrew
    obtain ⟨middle, hfirst, hrest⟩ := foldlM_cons_some hrun
    have hmiddle : middle.threw = none := by
      cases writes with
      | nil => cases hrest; exact hthrew
      | cons next writes =>
        obtain ⟨_, hnext, -⟩ := foldlM_cons_some hrest
        exact (turn_threw hnext).1
    obtain ⟨n, -, -, hle, hmid⟩ := turn_some hfirst hmiddle hlen
    exact ih (h.turn hlen hfirst hmiddle) (by rw [hmid]; simp only; omega) hrest hthrew

/-- The bytes go out once and in order if and only if no write but the last one takes 2^31 bytes. -/
theorem InOrder.run (htotal : total < 2 ^ 32) (writes : List (Option ℕ)) : ∀ {w w' : Writing},
    InOrder total w → writes.foldlM Writing.turn w = some w' → w'.threw = none → w'.len = 0 →
      (w'.passed = ((List.range total).map fun i : ℕ ↦ (i : ℤ)) ↔
        ∀ n, some n ∈ writes.dropLast → n < 2 ^ 31) := by
  induction writes with
  | nil =>
    intro w w' h hrun _ hlen
    cases hrun
    refine iff_of_true ?_ fun _ hmem ↦ absurd hmem List.not_mem_nil
    rw [h.passed, hlen, Nat.sub_zero]
  | cons write writes ih =>
    intro w w' h hrun hthrew hend
    have hlen : w.len < 2 ^ 32 := h.le.trans_lt htotal
    obtain ⟨middle, hfirst, hrest⟩ := foldlM_cons_some hrun
    cases writes with
    | nil =>
      cases hrest
      obtain ⟨n, rfl, -, hle, rfl⟩ := turn_some hfirst hthrew hlen
      refine iff_of_true ?_ fun _ hmem ↦ absurd hmem List.not_mem_nil
      simp only at hend ⊢
      rw [h.passed_append hle, hend, Nat.sub_zero]
    | cons next writes =>
      obtain ⟨_, hnext, -⟩ := foldlM_cons_some hrest
      obtain ⟨hmiddle, hleft⟩ := turn_threw hnext
      obtain ⟨n, rfl, hpos, hle, rfl⟩ := turn_some hfirst hmiddle hlen
      rw [List.dropLast_cons_of_ne_nil (List.cons_ne_nil _ _)]
      rcases Nat.lt_or_ge n (2 ^ 31) with hlow | hhigh
      · have hnextOrder : InOrder total
            ⟨w.buf + toInt n, w.len - n, w.passed ++ (List.range n).map fun i : ℕ ↦ w.buf + (i : ℤ),
              none⟩ := by
          have htotal := h.le
          refine ⟨rfl, by simp only; omega, ?_, h.passed_append hle⟩
          rw [h.buf, toInt_of_lt hlow]
          simp only
          omega
        rw [ih hnextOrder hrest hthrew hend]
        refine forall_congr' fun m ↦ ?_
        rw [List.mem_cons, Option.some.injEq]
        exact ⟨fun hall hmem ↦ hmem.elim (fun hm ↦ hm ▸ hlow) hall, fun hall hmem ↦ hall (.inr hmem)⟩
      · refine iff_of_false ?_ fun hall ↦ ?_
        · have hbuf : w.buf + toInt n < 0 := by
            have htotal' := h.le
            rw [h.buf, toInt_of_le hhigh (by omega)]
            omega
          have hfront := InFront.run _ ⟨rfl, .inr ⟨hbuf, hleft⟩⟩ (by simp only; omega) hrest hthrew
          rcases hfront.front with ⟨place, hplace, hnegative⟩ | ⟨-, hpos'⟩
          · intro heq
            rw [heq] at hplace
            obtain ⟨i, -, rfl⟩ := List.mem_map.mp hplace
            exact absurd hnegative (by omega)
          · exact absurd hend hpos'.ne'
        · exact absurd (hall n List.mem_cons_self) (Nat.not_lt.mpr hhigh)

end Write

/-- The outcomes of `::write` behind which an exception is thrown: an error, and the one count whose
conversion is -1. -/
def Throws (write : Option ℕ) : Prop := write = none ∨ write = some (2 ^ 32 - 1)

theorem toInt_eq_neg_one {n : ℕ} (h : n < 2 ^ 32) : toInt n = -1 ↔ n = 2 ^ 32 - 1 := by
  rcases Nat.lt_or_ge n (2 ^ 31) with hlow | hhigh
  · rw [toInt_of_lt hlow]
    omega
  · rw [toInt_of_le hhigh h]
    omega

/-- A loop throws if and only if one of its writes fails, or seems to. -/
theorem threw_iff {len : ℕ} (hlen : len < 2 ^ 32) {writes : List (Option ℕ)} {w : Writing}
    (hrun : writes.foldlM Writing.turn ⟨0, len, [], none⟩ = some w) :
    w.threw = none ↔ ∀ write ∈ writes, ¬ Throws write := by
  constructor
  · intro hthrew
    have hfatal : ∀ (w w' : Writing) write, Throws write → w.turn write = some w' →
        ¬ w'.threw = none := by
      rintro w w' write (rfl | rfl) hturn <;> unfold Writing.turn at hturn <;> split at hturn
      · cases hturn; exact nofun
      · cases hturn
      · simp only [show toInt (2 ^ 32 - 1) = -1 by decide, if_true] at hturn
        split at hturn <;> cases hturn
        exact nofun
      · cases hturn
    exact (foldlM_alive hfatal (fun w w' write hdead hturn _ ↦ hdead (turn_threw hturn).1) writes hrun
      (not_not_intro hthrew)).2
  · intro hnone
    have hstep : ∀ (w w' : Writing) write, (w.threw = none ∧ w.len < 2 ^ 32) → ¬ Throws write →
        w.turn write = some w' → w'.threw = none ∧ w'.len < 2 ^ 32 := by
      rintro w w' write ⟨-, hlt⟩ hwrite hturn
      unfold Writing.turn at hturn
      split at hturn
      · cases write with
        | none => exact absurd (.inl rfl) hwrite
        | some n =>
          simp only at hturn
          split at hturn
          · rename_i hn
            split at hturn
            · rename_i hminus
              exact absurd (.inr (congrArg some ((toInt_eq_neg_one (by omega)).mp hminus))) hwrite
            · cases hturn
              refine ⟨rfl, ?_⟩
              simp only [toUInt32_sub hn.2 hlt]
              omega
          · cases hturn
      · cases hturn
    exact (foldlM_invariant hstep writes ⟨rfl, hlen⟩ hnone hrun).1

/-- `write_virt` passes on every byte unless a write in the middle takes 2^31 bytes. -/
theorem passesAll_iff {x : Xport} {len : ℕ} (hlen : len < 2 ^ 32) {writes : List (Option ℕ)}
    {w : Writing} (h : x.writeVirt len writes = some w) :
    PassesAll len w ↔
      (∃ write ∈ writes, Throws write) ∨ ∀ n, some n ∈ writes.dropLast → n < 2 ^ 31 := by
  unfold Xport.writeVirt at h
  split at h
  · split at h <;> cases h
    rename_i hwrites
    subst hwrites
    exact iff_of_true (.inl nofun) (.inr fun _ hmem ↦ absurd hmem List.not_mem_nil)
  obtain ⟨w', hrun, hend⟩ := Option.bind_eq_some_iff.mp h
  split at hend <;> cases hend
  rename_i hended
  by_cases hthrew : w.threw = none
  · have hnone := (threw_iff hlen hrun).mp hthrew
    have horder : InOrder len ⟨0, len, [], none⟩ :=
      ⟨rfl, le_rfl, by rw [Nat.sub_self]; rfl, by rw [Nat.sub_self]; rfl⟩
    have hpassed := InOrder.run hlen writes horder hrun hthrew (hended.resolve_left (not_not_intro hthrew))
    rw [← hpassed]
    exact ⟨fun hall ↦ .inr (hall.resolve_left (not_not_intro hthrew)), fun hall ↦
      .inr (hall.resolve_left fun ⟨write, hmem, hthrows⟩ ↦ hnone write hmem hthrows)⟩
  · refine iff_of_true (.inl hthrew) (.inl ?_)
    by_contra hnone
    exact hthrew ((threw_iff hlen hrun).mpr fun write hmem hthrows ↦ hnone ⟨write, hmem, hthrows⟩)

/-- The two calls keep what the interface promises if and only if `::read`, where it is called, does
not fail, and no `::write` but the last takes 2^31 bytes or more, unless one of them throws. -/
theorem faithful_iff {x : Xport} {len : ℕ} (hlen : len < 2 ^ 32) (poll : Option (Revents × Revents))
    {read : Option (List UInt8)} (hread : ∀ bytes, read = some bytes → bytes.length ≤ len)
    {writes : List (Option ℕ)} {w : Writing} (hwrite : x.writeVirt len writes = some w) :
    (ReportsRead x len poll read ↔ ¬ (x.Reads poll ∧ read = none)) ∧
      (PassesAll len w ↔
        (∃ write ∈ writes, Throws write) ∨ ∀ n, some n ∈ writes.dropLast → n < 2 ^ 31) :=
  ⟨reportsRead_iff hlen hread, passesAll_iff hlen hwrite⟩

/-- Two bytes are read, and three are written in two pieces. -/
theorem faithful_pieces : ∃ w, Xport.writeVirt ⟨3, 4⟩ 3 [some 1, some 2] = some w ∧
    ReportsRead ⟨3, 4⟩ 3 (some (⟨true, false⟩, ⟨false, false⟩)) (some [97, 98]) ∧ PassesAll 3 w := by
  have hwrite : Xport.writeVirt ⟨3, 4⟩ 3 [some 1, some 2] = some ⟨3, 0, [0, 1, 2], none⟩ := by decide
  have hread : ∀ bytes, some [(97 : UInt8), 98] = some bytes → bytes.length ≤ 3 := by
    intro bytes hbytes
    cases hbytes
    decide
  obtain ⟨hreports, hpasses⟩ :=
    faithful_iff (by norm_num) (some (⟨true, false⟩, ⟨false, false⟩)) hread hwrite
  refine ⟨_, hwrite, hreports.mpr (fun h ↦ by cases h.2), hpasses.mpr (.inr fun n hmem ↦ ?_)⟩
  cases List.mem_singleton.mp hmem
  norm_num

/-- `::read` fails on a descriptor that `poll` reported as readable: the result is a count of
4294967295 bytes for a buffer of 16. -/
theorem not_reportsRead_error :
    Xport.readVirt ⟨3, 4⟩ (some (⟨true, false⟩, ⟨false, false⟩)) none = .ok (4294967295, []) ∧
      ¬ ReportsRead ⟨3, 4⟩ 16 (some (⟨true, false⟩, ⟨false, false⟩)) none := by
  have hcall : Xport.readVirt ⟨3, 4⟩ (some (⟨true, false⟩, ⟨false, false⟩)) none =
      .ok (4294967295, []) := by decide
  exact ⟨hcall, fun h ↦ absurd (h.1 _ _ hcall).1 (by decide)⟩

end ZephyrThrift.Server
