import ZephyrThrift.Muzic.Window

/-!
# Matches anywhere in the ring

Whatever is appended, the ring holds the last 32 KiB of the history, each byte at its number modulo the
size of the ring (`RingHolds`). A read at a distance within the history copies as LZ77 demands exactly
when its source does not cross the end of the ring, or crosses it once and stops in front of the write
pointer (`copiesMatch_iff`).
-/

set_option autoImplicit false
set_option relaxedAutoImplicit false

namespace ZephyrThrift.Muzic

open Foundation

/-! ### The history in the ring -/

/-- The write pointer, and the last bytes of the history at their numbers modulo the size. -/
structure RingHolds (infbuf : InfOutbuf) (history : List UInt8) : Prop where
  ptr_nil : history = [] → infbuf.ptr = 0
  ptr : history ≠ [] → infbuf.ptr = (history.length - 1) % infOutbufSize + 1
  ring : ∀ n, n < history.length → history.length ≤ n + infOutbufSize →
    infbuf.ring (n % infOutbufSize) = history.getD n 0

theorem ringHolds_nil (ring : ℕ → UInt8) : RingHolds ⟨ring, 0⟩ [] :=
  ⟨fun _ ↦ rfl, fun h ↦ absurd rfl h, fun n h ↦ absurd h (Nat.not_lt_zero n)⟩

section Holding

variable {infbuf : InfOutbuf} {history : List UInt8}

/-- The pointer is the length of the history modulo the size, but the end of the ring in place of its
beginning. -/
theorem RingHolds.ptr_cases (h : RingHolds infbuf history) :
    (infbuf.ptr < infOutbufSize ∧ infbuf.ptr = history.length % infOutbufSize) ∨
      (infbuf.ptr = infOutbufSize ∧ history.length % infOutbufSize = 0) := by
  by_cases hnil : history = []
  · left
    rw [h.ptr_nil hnil, hnil]
    exact ⟨by simp [infOutbufSize], rfl⟩
  · have hptr := h.ptr hnil
    have hlength := List.length_pos_iff.mpr hnil
    simp only [infOutbufSize] at hptr ⊢
    omega

theorem RingHolds.ptr_le (h : RingHolds infbuf history) : infbuf.ptr ≤ infOutbufSize := by
  rcases h.ptr_cases with h | h <;> omega

/-- Where the next byte goes. -/
theorem RingHolds.place (h : RingHolds infbuf history) :
    (if infOutbufSize ≤ infbuf.ptr then 0 else infbuf.ptr) = history.length % infOutbufSize := by
  rcases h.ptr_cases with ⟨hlt, hptr⟩ | ⟨hend, hzero⟩
  · rw [if_neg (not_le.mpr hlt), hptr]
  · rw [if_pos hend.ge, hzero]

theorem RingHolds.put (h : RingHolds infbuf history) (c : UInt8) :
    RingHolds (ringPut infbuf c) (history ++ [c]) := by
  have hput : ringPut infbuf c =
      ⟨Function.update infbuf.ring (history.length % infOutbufSize) c,
        history.length % infOutbufSize + 1⟩ := by
    rw [ringPut, h.place]
  rw [hput]
  refine ⟨fun hnil ↦ by simp at hnil, fun _ ↦ ?_, fun n hn hin ↦ ?_⟩
  · rw [List.length_append, List.length_singleton, Nat.add_sub_cancel]
  · rw [List.length_append, List.length_singleton] at hn hin
    simp only [Function.update_apply]
    by_cases hlast : n = history.length
    · rw [hlast, if_pos rfl, List.getD_append_right _ _ _ _ le_rfl, Nat.sub_self]
      rfl
    · have hother : n % infOutbufSize ≠ history.length % infOutbufSize := by
        simp only [infOutbufSize] at hin ⊢
        omega
      rw [if_neg hother, List.getD_append _ _ _ _ (by omega), h.ring n (by omega) (by omega)]

theorem RingHolds.foldl_put (bytes : List UInt8) :
    ∀ {infbuf : InfOutbuf} {history : List UInt8}, RingHolds infbuf history →
      RingHolds (bytes.foldl ringPut infbuf) (history ++ bytes) := by
  induction bytes with
  | nil => intro infbuf history h; simpa using h
  | cons byte bytes ih =>
    intro infbuf history h
    simpa using ih (h.put byte)

/-- A byte of the history at a distance that the ring holds. -/
theorem RingHolds.ring_at (h : RingHolds infbuf history) {distance offset place : ℕ}
    (hdistance : distance ≤ history.length) (hsize : distance ≤ infOutbufSize)
    (hoffset : offset < distance)
    (hplace : place = (history.length - distance + offset) % infOutbufSize) :
    infbuf.ring place = history.getD (history.length - distance + offset) 0 := by
  rw [hplace]
  exact h.ring _ (by omega) (by omega)

end Holding

/-! ### What reads append -/

theorem readRing_ringPut {build : Build} {infbuf : InfOutbuf} {place : ℕ} {c : UInt8}
    (hread : readRing build infbuf place = .ok c) :
    readRing build (ringPut infbuf c) place = .ok c := by
  rw [readRing] at hread ⊢
  by_cases hplace : place < infOutbufSize
  · rw [if_pos hplace] at hread ⊢
    injection hread with hread
    rw [ringPut]
    simp only [Function.update_apply, hread, ite_self]
  · rw [if_neg hplace] at hread ⊢
    exact hread

/-- One turn of the copy loop, where its read succeeds. -/
theorem copyLoop_succ {build : Build} {infbuf : InfOutbuf} (h : infbuf.ptr ≤ infOutbufSize)
    {place : ℕ} {c : UInt8} (hread : readRing build infbuf place = .ok c) (count : ℕ) :
    copyLoop build (count + 1) place infbuf =
      (copyLoop build count (place + 1) (ringPut infbuf c)).map fun rest ↦
        (c :: rest.1, rest.2) := by
  simp only [copyLoop, hread, infOutbufPutc_eq build h, readRing_ringPut hread, bind, Except.bind]
  cases copyLoop build count (place + 1) (ringPut infbuf c) <;> rfl

/-- The copy loop stores in the ring what it stores for the caller. -/
theorem copyLoop_stores {build : Build} (count : ℕ) :
    ∀ {place : ℕ} {infbuf infbuf' : InfOutbuf} {bytes : List UInt8},
      infbuf.ptr ≤ infOutbufSize → copyLoop build count place infbuf = .ok (bytes, infbuf') →
        infbuf' = bytes.foldl ringPut infbuf := by
  induction count with
  | zero => intro place infbuf infbuf' bytes _ hcopy; cases hcopy; rfl
  | succ count ih =>
    intro place infbuf infbuf' bytes h hcopy
    cases hread : readRing build infbuf place with
    | error fault => simp only [copyLoop, hread, bind, Except.bind] at hcopy; cases hcopy
    | ok c =>
      rw [copyLoop_succ h hread] at hcopy
      obtain ⟨rest, hrest, heq⟩ := map_ok hcopy
      cases heq
      rw [List.foldl_cons]
      exact ih (ringPut_ptr_le _ _) hrest

/-- So does a read that succeeds. -/
theorem infOutbufRead_stores {build : Build} {infbuf infbuf' : InfOutbuf} {distance count : ℕ}
    {bytes : List UInt8} (h : infbuf.ptr ≤ infOutbufSize)
    (hread : infOutbufRead build infbuf distance count = .ok (true, bytes, infbuf')) :
    infbuf' = bytes.foldl ringPut infbuf := by
  rw [infOutbufRead] at hread
  by_cases hwrapped : infbuf.ptr < distance
  · rw [if_pos hwrapped] at hread
    by_cases hfar : infbuf.ptr + infOutbufSize < distance
    · rw [if_pos hfar] at hread
      cases hread
    rw [if_neg hfar] at hread
    dsimp only at hread
    split at hread
    · cases hread
      exact infOutbufWrite_eq _ _
    · split at hread
      · cases hread
      · split at hread
        · cases hread
        · next hcopy =>
          cases hread
          rw [copyLoop_stores _ (infOutbufWrite_ptr_le h _) hcopy, infOutbufWrite_eq,
            List.foldl_append]
  · rw [if_neg hwrapped] at hread
    split at hread
    · cases hread
    · next hcopy =>
      cases hread
      exact copyLoop_stores _ h hcopy

/-- A ring to which calls of the three operations have appended a history. -/
inductive Appended (build : Build) : InfOutbuf → List UInt8 → Prop
  | init (ring : ℕ → UInt8) : Appended build ⟨ring, 0⟩ []
  | putc {infbuf infbuf' : InfOutbuf} {history : List UInt8} {c : UInt8}
      (h : Appended build infbuf history) (hput : infOutbufPutc build infbuf c = .ok infbuf') :
      Appended build infbuf' (history ++ [c])
  | write {infbuf : InfOutbuf} {history : List UInt8} (bytes : List UInt8)
      (h : Appended build infbuf history) :
      Appended build (infOutbufWrite infbuf bytes) (history ++ bytes)
  | read {infbuf infbuf' : InfOutbuf} {history bytes : List UInt8} {distance count : ℕ}
      (h : Appended build infbuf history)
      (hread : infOutbufRead build infbuf distance count = .ok (true, bytes, infbuf')) :
      Appended build infbuf' (history ++ bytes)

theorem Appended.holds {build : Build} {infbuf : InfOutbuf} {history : List UInt8}
    (h : Appended build infbuf history) : RingHolds infbuf history := by
  induction h with
  | init ring => exact ringHolds_nil ring
  | putc _ hput ih =>
    rw [infOutbufPutc_eq build ih.ptr_le] at hput
    cases hput
    exact ih.put _
  | write bytes _ ih =>
    rw [infOutbufWrite_eq]
    exact ih.foldl_put bytes
  | read _ hread ih =>
    rw [infOutbufRead_stores ih.ptr_le hread]
    exact ih.foldl_put _

/-! ### Reads within the history -/

section Reads

variable {infbuf : InfOutbuf} {history : List UInt8} {distance : ℕ}

/-- The copy loop follows the distance as long as it stays within the ring: what it writes never
overtakes what it reads. -/
theorem copyLoop_ring (build : Build) (hpos : 0 < distance) (hsize : distance ≤ infOutbufSize) (count : ℕ) :
    ∀ {place : ℕ} {infbuf : InfOutbuf} {history : List UInt8}, RingHolds infbuf history →
      distance ≤ history.length → place + count ≤ infOutbufSize →
      (history.length - distance) % infOutbufSize = place % infOutbufSize →
        copyLoop build count place infbuf =
          .ok (overlap distance history count,
            (overlap distance history count).foldl ringPut infbuf) := by
  induction count with
  | zero => intro place infbuf history _ _ _ _; rfl
  | succ count ih =>
    intro place infbuf history h hdistance hroom hplace
    have hlt : place < infOutbufSize := by omega
    have hbyte := h.ring_at hdistance hsize hpos
      (show place = (history.length - distance + 0) % infOutbufSize by
        rw [Nat.add_zero, hplace, Nat.mod_eq_of_lt hlt])
    have hread : readRing build infbuf place =
        .ok (history.getD (history.length - distance) 0) := by
      rw [readRing, if_pos hlt, hbyte]
      rfl
    have hnext : ((history ++ [history.getD (history.length - distance) 0]).length - distance) %
        infOutbufSize = (place + 1) % infOutbufSize := by
      rw [List.length_append, List.length_singleton, Nat.sub_add_comm hdistance, Nat.add_mod, hplace,
        ← Nat.add_mod]
    rw [copyLoop_succ h.ptr_le hread, ih (h.put _) (by rw [List.length_append]; omega) (by omega)
      hnext]
    rfl

/-- Where nothing lies behind the ring, the copy loop fails at its end. -/
theorem copyLoop_beyond {ndebug : Bool} (count : ℕ) :
    ∀ {place : ℕ} {infbuf : InfOutbuf}, infbuf.ptr ≤ infOutbufSize → place ≤ infOutbufSize →
      infOutbufSize < place + count →
        copyLoop ⟨ndebug, none⟩ count place infbuf = .error .ringIndex := by
  induction count with
  | zero => intro place infbuf _ hplace hbeyond; omega
  | succ count ih =>
    intro place infbuf h hplace hbeyond
    by_cases hlt : place < infOutbufSize
    · have hread : readRing ⟨ndebug, none⟩ infbuf place = .ok (infbuf.ring place) := by
        rw [readRing, if_pos hlt]
      rw [copyLoop_succ h hread, ih (ringPut_ptr_le _ _) (by omega) (by omega)]
      rfl
    · simp only [copyLoop, readRing, if_neg hlt, bind, Except.bind]

/-- The part of the source in front of the end of the ring. -/
theorem ringBytes_eq (h : RingHolds infbuf history) (hpos : 0 < distance)
    (hdistance : distance ≤ history.length) (hsize : distance ≤ infOutbufSize)
    (hwrapped : infbuf.ptr < distance) {count : ℕ} (hcount : count ≤ distance - infbuf.ptr) :
    ringBytes infbuf (infbuf.ptr + infOutbufSize - distance) count =
      overlap distance history count := by
  rw [overlap_eq_take hpos hdistance (by omega)]
  apply List.ext_getElem
  · simp only [ringBytes, List.length_map, List.length_range, List.length_take, List.length_drop]
    omega
  · intro i hi _
    simp only [ringBytes, List.length_map, List.length_range] at hi
    have hplace : infbuf.ptr + infOutbufSize - distance + i =
        (history.length - distance + i) % infOutbufSize := by
      have hptr := h.ptr_cases
      simp only [infOutbufSize] at hptr hsize hwrapped hcount ⊢
      omega
    simp only [ringBytes, List.getElem_map, List.getElem_range, List.getElem_take,
      List.getElem_drop]
    rw [h.ring_at hdistance hsize (show i < distance by omega) hplace,
      List.getD_eq_getElem _ _ (by omega)]

/-- What a source that crosses the end of the ring copies first brings the write pointer to the
distance. -/
theorem ptr_after_crossing (h : RingHolds infbuf history) (hsize : distance ≤ infOutbufSize)
    (hwrapped : infbuf.ptr < distance) {bytes : List UInt8}
    (hlength : bytes.length = distance - infbuf.ptr) :
    (bytes.foldl ringPut infbuf).ptr = distance ∧
      (history ++ bytes).length % infOutbufSize = distance % infOutbufSize := by
  have hafter := (h.foldl_put bytes).ptr (by
    intro hnil
    rw [(List.append_eq_nil_iff.mp hnil).2, List.length_nil] at hlength
    omega)
  have hptr := h.ptr_cases
  rw [hafter, List.length_append, hlength]
  simp only [infOutbufSize] at hptr hsize hwrapped ⊢
  omega

/-- The sources that `Inf_Outbuf_read` can copy from: in front of the write pointer, they do not cross
the end of the ring; behind it, they end in front of what the first piece of the copy has reached. -/
def Copyable (infbuf : InfOutbuf) (distance count : ℕ) : Prop :=
  (distance ≤ infbuf.ptr → infbuf.ptr - distance + count ≤ infOutbufSize) ∧
    (infbuf.ptr < distance → count ≤ 2 * distance - infbuf.ptr)

instance (infbuf : InfOutbuf) (distance count : ℕ) : Decidable (Copyable infbuf distance count) :=
  inferInstanceAs (Decidable (_ ∧ _))

theorem infOutbufRead_ring (build : Build) (h : RingHolds infbuf history) (hpos : 0 < distance)
    (hdistance : distance ≤ history.length) (hsize : distance ≤ infOutbufSize) {count : ℕ}
    (hcopyable : Copyable infbuf distance count) :
    infOutbufRead build infbuf distance count =
      .ok (true, overlap distance history count,
        (overlap distance history count).foldl ringPut infbuf) := by
  have hptr := h.ptr_cases
  rw [infOutbufRead]
  by_cases hwrapped : infbuf.ptr < distance
  · have hrest : infOutbufSize - (infbuf.ptr + infOutbufSize - distance) = distance - infbuf.ptr := by
      omega
    rw [if_pos hwrapped, if_neg (by omega)]
    dsimp only
    rw [hrest]
    by_cases hfits : count ≤ distance - infbuf.ptr
    · rw [if_pos hfits, ringBytes_eq h hpos hdistance hsize hwrapped hfits, infOutbufWrite_eq]
    · have hlimit := hcopyable.2 hwrapped
      have hfirst := ringBytes_eq h hpos hdistance hsize hwrapped le_rfl
      obtain ⟨hafter, hmod⟩ := ptr_after_crossing h hsize hwrapped
        (length_overlap distance history (distance - infbuf.ptr))
      have hsecond := copyLoop_ring build hpos hsize (count - (distance - infbuf.ptr))
        (h.foldl_put (overlap distance history (distance - infbuf.ptr)))
        (by rw [List.length_append]; omega)
        (show 0 + (count - (distance - infbuf.ptr)) ≤ infOutbufSize by omega)
        (by simp only [infOutbufSize] at hmod ⊢; rw [List.length_append] at hmod ⊢; omega)
      have hsum := overlap_add distance (distance - infbuf.ptr) (count - (distance - infbuf.ptr))
        history
      rw [Nat.add_sub_cancel' (not_le.mp hfits).le] at hsum
      rw [if_neg hfits, hfirst, infOutbufWrite_eq, hafter, if_neg (by omega), hsecond, hsum,
        List.foldl_append]
  · rw [if_neg hwrapped, copyLoop_ring build hpos hsize count h hdistance
      (hcopyable.1 (not_lt.mp hwrapped)) (by simp only [infOutbufSize] at hptr hsize ⊢; omega)]

/-- A source that crosses the end of the ring a second time is refused. -/
theorem infOutbufRead_refused (build : Build) (h : RingHolds infbuf history) (hpos : 0 < distance)
    (hdistance : distance ≤ history.length) (hsize : distance ≤ infOutbufSize)
    (hwrapped : infbuf.ptr < distance) {count : ℕ} (hbeyond : 2 * distance - infbuf.ptr < count) :
    ∃ bytes infbuf', infOutbufRead build infbuf distance count = .ok (false, bytes, infbuf') := by
  have hafter := (ptr_after_crossing h hsize hwrapped
    (length_overlap distance history (distance - infbuf.ptr))).1
  have hrest : infOutbufSize - (infbuf.ptr + infOutbufSize - distance) = distance - infbuf.ptr := by
    omega
  rw [infOutbufRead, if_pos hwrapped, if_neg (by omega)]
  dsimp only
  rw [hrest, if_neg (by omega), ringBytes_eq h hpos hdistance hsize hwrapped le_rfl,
    infOutbufWrite_eq, hafter, if_pos (by omega)]
  exact ⟨_, _, rfl⟩

/-- A source in front of the write pointer is read on behind the end of the ring. -/
theorem infOutbufRead_beyond {ndebug : Bool} (h : infbuf.ptr ≤ infOutbufSize)
    (hplain : distance ≤ infbuf.ptr) {count : ℕ}
    (hbeyond : infOutbufSize < infbuf.ptr - distance + count) :
    infOutbufRead ⟨ndebug, none⟩ infbuf distance count = .error .ringIndex := by
  rw [infOutbufRead, if_neg (not_lt.mpr hplain),
    copyLoop_beyond count h ((Nat.sub_le _ _).trans h) hbeyond]

end Reads

/-! ### Exactly when a read copies -/

/-- A read that succeeds as LZ77 demands: it copies byte by byte from the history, stays within the ring
and leaves the ring with what it copied behind the history. -/
def CopiesMatch (build : Build) (infbuf : InfOutbuf) (history : List UInt8) (distance count : ℕ) :
    Prop :=
  ∃ bytes infbuf', infOutbufRead build infbuf distance count = .ok (true, bytes, infbuf') ∧
    bytes.length = count ∧
    (∀ i, i < count → i < distance → bytes[i]? = history[history.length - distance + i]?) ∧
    (∀ i, i < count → distance ≤ i → bytes[i]? = bytes[i - distance]?) ∧
    (∀ i, infOutbufSize ≤ i → infbuf'.ring i = infbuf.ring i) ∧
    RingHolds infbuf' (history ++ bytes)

theorem foldl_ringPut_outside (bytes : List UInt8) :
    ∀ {infbuf : InfOutbuf} {i : ℕ}, infOutbufSize ≤ i →
      (bytes.foldl ringPut infbuf).ring i = infbuf.ring i := by
  induction bytes with
  | nil => intro infbuf i _; rfl
  | cons byte bytes ih =>
    intro infbuf i hi
    rw [List.foldl_cons, ih hi, ringPut]
    refine Function.update_of_ne ?_ _ _
    split
    · simp only [infOutbufSize] at hi
      omega
    · omega

/-- At every state of the ring and every distance within the history, a read copies as LZ77 demands
exactly when its source is copyable. -/
theorem copiesMatch_iff {ndebug : Bool} {infbuf : InfOutbuf} {history : List UInt8}
    (happended : Appended ⟨ndebug, none⟩ infbuf history) {distance : ℕ} (hpos : 0 < distance)
    (hdistance : distance ≤ min history.length infOutbufSize) (count : ℕ) :
    CopiesMatch ⟨ndebug, none⟩ infbuf history distance count ↔
      Copyable infbuf distance count := by
  have h := happended.holds
  obtain ⟨hlength, hsize⟩ := le_min_iff.mp hdistance
  constructor
  · rintro ⟨bytes, infbuf', hread, -⟩
    refine ⟨fun hplain ↦ not_lt.mp fun hbeyond ↦ ?_, fun hwrapped ↦ not_lt.mp fun hbeyond ↦ ?_⟩
    · rw [infOutbufRead_beyond h.ptr_le hplain hbeyond] at hread
      cases hread
    · obtain ⟨_, _, hrefused⟩ :=
        infOutbufRead_refused ⟨ndebug, none⟩ h hpos hlength hsize hwrapped hbeyond
      rw [hrefused] at hread
      cases hread
  · intro hcopyable
    refine ⟨_, _, infOutbufRead_ring _ h hpos hlength hsize hcopyable, length_overlap _ _ _,
      fun i hi hin ↦ ?_, fun i hi hin ↦ ?_, fun i hi ↦ foldl_ringPut_outside _ hi, h.foldl_put _⟩
    · rw [getElem?_overlap hpos count hlength hi, List.getElem?_append_left (by omega)]
    · rw [getElem?_overlap hpos count hlength hi, List.getElem?_append_right (by omega)]
      congr 1
      omega

/-- A match that runs into itself, near the beginning of the ring. -/
theorem copiesMatch_three :
    CopiesMatch ⟨false, none⟩ (infOutbufWrite ⟨fun _ ↦ 0, 0⟩ [1, 2, 3]) [1, 2, 3] 2 5 := by
  have happended : Appended ⟨false, none⟩ (infOutbufWrite ⟨fun _ ↦ 0, 0⟩ [1, 2, 3]) [1, 2, 3] :=
    Appended.write [1, 2, 3] (Appended.init fun _ ↦ 0)
  exact (copiesMatch_iff happended (show 0 < 2 by decide) (by decide) 5).mpr (by decide)

/-- Behind 32769 bytes the write pointer is at 1, and a match of length 4 at the distance 2 is refused;
behind 32768 bytes it is at the end of the ring, and a match of length 3 at the distance 2 reads
behind the ring. -/
theorem not_copiesMatch_at_end :
    (∃ infbuf, Appended ⟨false, none⟩ infbuf (List.replicate 32769 0) ∧
      ¬ CopiesMatch ⟨false, none⟩ infbuf (List.replicate 32769 0) 2 4) ∧
    ∃ infbuf, Appended ⟨false, none⟩ infbuf (List.replicate 32768 0) ∧
      ¬ CopiesMatch ⟨false, none⟩ infbuf (List.replicate 32768 0) 2 3 := by
  have happended : ∀ count, Appended ⟨false, none⟩
      (infOutbufWrite ⟨fun _ ↦ 0, 0⟩ (List.replicate count 0)) (List.replicate count 0) :=
    fun count ↦ Appended.write (List.replicate count 0) (Appended.init fun _ ↦ 0)
  have hptr : ∀ count, (infOutbufWrite ⟨fun _ ↦ 0, 0⟩ (List.replicate (count + 1) 0)).ptr =
      count % infOutbufSize + 1 := by
    intro count
    have h := (happended (count + 1)).holds.ptr (by simp)
    rwa [List.length_replicate, Nat.add_sub_cancel] at h
  refine ⟨⟨_, happended 32769, ?_⟩, ⟨_, happended 32768, ?_⟩⟩
  · rintro ⟨bytes, infbuf', hread, -⟩
    have hone := hptr 32768
    obtain ⟨_, _, hrefused⟩ := infOutbufRead_refused ⟨false, none⟩
      (happended 32769).holds (show 0 < 2 by decide) (by rw [List.length_replicate]; decide)
      (by decide) (by rw [hone]; decide) (show 2 * 2 - _ < 4 by rw [hone]; decide)
    rw [hrefused] at hread
    cases hread
  · rintro ⟨bytes, infbuf', hread, -⟩
    have hend := hptr 32767
    rw [infOutbufRead_beyond (happended 32768).holds.ptr_le (by rw [hend]; decide)
      (by rw [hend]; decide)] at hread
    cases hread

/-! ### Appending in pieces -/

/-- A call that appends to the ring. -/
inductive RingCall
  | putc (c : UInt8)
  | write (bytes : List UInt8)

def RingCall.perform (build : Build) (infbuf : InfOutbuf) : RingCall → Except Fault InfOutbuf
  | putc c => infOutbufPutc build infbuf c
  | write bytes => .ok (infOutbufWrite infbuf bytes)

/-- The bytes that a call appends. -/
def RingCall.bytes : RingCall → List UInt8
  | putc c => [c]
  | write bytes => bytes

/-- What is asked of a ring that held `ring` at first: the pointer stays between the beginning and the
end, nothing is stored behind the end, and the last 32768 bytes stand at their numbers modulo the size. -/
structure KeepsLast (ring : ℕ → UInt8) (infbuf : InfOutbuf) (history : List UInt8) : Prop where
  ptr_le : infbuf.ptr ≤ infOutbufSize
  outside : ∀ i, infOutbufSize ≤ i → infbuf.ring i = ring i
  last : ∀ n, history.length - min history.length infOutbufSize ≤ n → n < history.length →
    history[n]? = some (infbuf.ring (n % infOutbufSize))

theorem RingCall.perform_eq (build : Build) {infbuf : InfOutbuf} (h : infbuf.ptr ≤ infOutbufSize)
    (call : RingCall) : call.perform build infbuf = .ok (infOutbufWrite infbuf call.bytes) := by
  cases call with
  | putc c =>
    rw [infOutbufWrite_eq]
    exact infOutbufPutc_eq build h c
  | write bytes => rfl

/-- Any calls store what one write of all their bytes stores. -/
theorem foldlM_perform (build : Build) (calls : List RingCall) :
    ∀ {infbuf : InfOutbuf}, infbuf.ptr ≤ infOutbufSize →
      calls.foldlM (RingCall.perform build) infbuf =
        .ok (infOutbufWrite infbuf (calls.flatMap RingCall.bytes)) := by
  induction calls with
  | nil => intro infbuf _; rw [List.flatMap_nil, infOutbufWrite_eq]; rfl
  | cons call calls ih =>
    intro infbuf h
    rw [List.foldlM_cons, call.perform_eq build h, List.flatMap_cons, infOutbufWrite_append]
    exact ih (infOutbufWrite_ptr_le h _)

/-- Any calls on a fresh window, and any calls behind them: the ring keeps the last bytes, and the calls
behind them are worth one write of their bytes, so it does not matter how a buffer is split. -/
theorem ringCalls_keep (build : Build) (ring : ℕ → UInt8) (calls : List RingCall) :
    ∃ infbuf, calls.foldlM (RingCall.perform build) ⟨ring, 0⟩ = .ok infbuf ∧
      KeepsLast ring infbuf (calls.flatMap RingCall.bytes) ∧
      ∀ more : List RingCall, more.foldlM (RingCall.perform build) infbuf =
        .ok (infOutbufWrite infbuf (more.flatMap RingCall.bytes)) := by
  generalize hhistory : calls.flatMap RingCall.bytes = history
  have hholds := (ringHolds_nil ring).foldl_put history
  rw [List.nil_append, ← infOutbufWrite_eq] at hholds
  refine ⟨infOutbufWrite ⟨ring, 0⟩ history, ?_, ⟨hholds.ptr_le, fun i hi ↦ ?_, fun n hfrom hn ↦ ?_⟩,
    fun more ↦ foldlM_perform build more hholds.ptr_le⟩
  · rw [foldlM_perform build calls (Nat.zero_le _), hhistory]
  · rw [infOutbufWrite_eq]
    exact foldl_ringPut_outside history hi
  · rw [hholds.ring n hn (by omega), List.getD_eq_getElem _ _ hn, List.getElem?_eq_getElem hn]

end ZephyrThrift.Muzic
